import Outline.Proofs.NormalRoutes

/-!
# Paths of entries

The path of an entry is the path of its directory with the name behind it. Such a path says the
route of the directory with one more step (`Route.ofText_below`), and leads to the entry, unless it
is too long (`FileSystem.find_below`). Entries have names that tell them apart from those beside
them (`Entry.isProper`).
-/

namespace Outline

/-- The path that a list of names leads to from a directory. -/
def below (base : String) (names : List String) : String :=
  names.foldl joinPath base

theorem below_concat (base : String) (names : List String) (name : String) :
    below base (names ++ [name]) = joinPath (below base names) name := by
  rw [below, List.foldl_append]
  rfl

/-! ## Texts -/

/-- A name stands behind a slash, which is there already or is put there. -/
theorem exists_toList_joinPath {base : String} (hbase : base ≠ "") (name : String) :
    ∃ x, (joinPath base name).toList = base.toList ++ (x ++ name.toList) ∧
      (base.toList ++ x).getLast? = some '/' ∧ (x = [] ∨ x = ['/']) := by
  unfold joinPath
  split
  · rename_i hnone
    exact absurd (String.toList_eq_nil_iff.1 (List.getLast?_eq_none_iff.1 hnone)) hbase
  · rename_i hslash
    exact ⟨[], by simp, by simpa using hslash, .inl rfl⟩
  · exact ⟨['/'], by simp, by simp, .inr rfl⟩

theorem joinPath_ne_empty {base : String} (hbase : base ≠ "") (name : String) :
    joinPath base name ≠ "" := by
  obtain ⟨x, htext, hlast, -⟩ := exists_toList_joinPath hbase name
  intro hempty
  rw [hempty] at htext
  have hnil : base.toList = [] := (List.append_eq_nil_iff.1 htext.symm).1
  exact hbase (String.toList_eq_nil_iff.1 hnil)

/-- Whatever names follow, the path starts with that of the directory. -/
theorem exists_toList_below {base : String} (hbase : base ≠ "") (names : List String) :
    below base names ≠ "" ∧ ∃ y, (below base names).toList = base.toList ++ y := by
  induction names generalizing base with
  | nil => exact ⟨hbase, [], by simp [below]⟩
  | cons name names ih =>
    obtain ⟨hne, y, hy⟩ := ih (joinPath_ne_empty hbase name)
    obtain ⟨x, hx, -, -⟩ := exists_toList_joinPath hbase name
    refine ⟨hne, x ++ name.toList ++ y, ?_⟩
    rw [show below base (name :: names) = below (joinPath base name) names from rfl, hy, hx]
    simp

theorem Text.splitAt_ne_nil (sep : Char) (cs : List Char) : splitAt sep cs ≠ [] := by
  cases cs with
  | nil => simp [splitAt]
  | cons c cs =>
    unfold splitAt
    split
    · simp
    · split <;> simp

/-- Around a separator, both sides are split on their own. -/
theorem Text.splitAt_append_sep (sep : Char) (xs ys : List Char) :
    splitAt sep (xs ++ sep :: ys) = splitAt sep xs ++ splitAt sep ys := by
  induction xs with
  | nil => simp [splitAt]
  | cons x xs ih =>
    rw [List.cons_append, splitAt, splitAt]
    by_cases hx : (x == sep) = true
    · rw [if_pos hx, if_pos hx, ih, List.cons_append]
    · rw [if_neg hx, if_neg hx, ih]
      obtain ⟨piece, pieces, hpieces⟩ := List.exists_cons_of_ne_nil (splitAt_ne_nil sep xs)
      rw [hpieces]
      rfl

/-- The pieces of a directory's path, without an empty one at the end, and the name are the pieces
    of an entry's path. -/
theorem exists_pieces {base name : String} (hbase : base ≠ "") (hname : isName name = true) :
    ∃ first rest, (Text.splitAt '/' base.toList = first :: (rest ++ [[]]) ∨
        Text.splitAt '/' base.toList = first :: rest ∧ ¬ (first = [] ∧ rest = [])) ∧
      Text.splitAt '/' (joinPath base name).toList = first :: (rest ++ [name.toList]) := by
  obtain ⟨x, htext, hlast, hx⟩ := exists_toList_joinPath hbase name
  have hsingle : Text.splitAt '/' name.toList = [name.toList] :=
    Text.splitAt_of_not_mem (isName_iff.1 hname).2.2.2
  rcases hx with rfl | rfl
  · rw [List.append_nil] at hlast
    obtain ⟨front, hfront⟩ := List.getLast?_eq_some_iff.1 hlast
    obtain ⟨first, rest, hpieces⟩ :=
      List.exists_cons_of_ne_nil (Text.splitAt_ne_nil '/' front)
    refine ⟨first, rest, .inl ?_, ?_⟩
    · rw [hfront, Text.splitAt_append_sep, hpieces]
      rfl
    · rw [htext, hfront, List.nil_append, List.append_assoc, List.singleton_append,
        Text.splitAt_append_sep, hpieces, hsingle, List.cons_append]
  · obtain ⟨first, rest, hpieces⟩ :=
      List.exists_cons_of_ne_nil (Text.splitAt_ne_nil '/' base.toList)
    refine ⟨first, rest, .inr ⟨hpieces, ?_⟩, ?_⟩
    · rintro ⟨rfl, rfl⟩
      cases hbase' : base.toList with
      | nil => exact hbase (String.toList_eq_nil_iff.1 hbase')
      | cons c cs =>
        rw [hbase', Text.splitAt] at hpieces
        by_cases hc : (c == '/') = true
        · rw [if_pos hc] at hpieces
          exact Text.splitAt_ne_nil _ _ (List.cons.inj hpieces).2
        · rw [if_neg hc] at hpieces
          split at hpieces <;> cases hpieces
    · rw [htext, List.singleton_append, Text.splitAt_append_sep, hpieces, hsingle, List.cons_append]

/-! ## Routes -/

namespace Route

/-- A route with names behind it. -/
def down (r : Route) (names : List String) : Route :=
  ⟨r.absolute, r.steps ++ names.map .name⟩

/-- The route that pieces say. -/
def ofPieces (first : List Char) (rest : List (List Char)) : Route :=
  if first = [] ∧ rest ≠ [] then ⟨true, rest.filterMap Step.ofPiece?⟩
  else if first = ['.'] then ⟨false, .here :: rest.filterMap Step.ofPiece?⟩
  else ⟨false, (Step.ofPiece? first).toList ++ rest.filterMap Step.ofPiece?⟩

theorem ofText_of_pieces {path : String} {first : List Char} {rest : List (List Char)}
    (h : Text.splitAt '/' path.toList = first :: rest) : ofText path = ofPieces first rest := by
  rw [ofText, h]
  rfl

/-- A last piece makes one more step than an empty one, unless it says nothing. -/
theorem ofPieces_concat (first : List Char) (rest : List (List Char)) (piece : List Char) :
    ofPieces first (rest ++ [piece]) =
      ⟨(ofPieces first (rest ++ [[]])).absolute,
        (ofPieces first (rest ++ [[]])).steps ++ (Step.ofPiece? piece).toList⟩ := by
  have hlater : (rest ++ [piece]).filterMap Step.ofPiece? =
      (rest ++ [[]]).filterMap Step.ofPiece? ++ (Step.ofPiece? piece).toList := by
    have hnone : Step.ofPiece? [] = none := rfl
    rw [List.filterMap_append, List.filterMap_append]
    cases hpiece : Step.ofPiece? piece <;> simp [hpiece, hnone]
  unfold ofPieces
  rw [hlater]
  by_cases hfirst : first = []
  · simp [hfirst]
  · by_cases hdot : first = ['.'] <;> simp [hfirst, hdot]

theorem ofPieces_concat_nil {first : List Char} {rest : List (List Char)}
    (h : ¬ (first = [] ∧ rest = [])) : ofPieces first (rest ++ [[]]) = ofPieces first rest := by
  have hlater : (rest ++ [[]]).filterMap Step.ofPiece? = rest.filterMap Step.ofPiece? := by
    rw [List.filterMap_append]
    exact List.append_nil _
  unfold ofPieces
  rw [hlater]
  by_cases hfirst : first = []
  · have hrest : rest ≠ [] := fun hrest => h ⟨hfirst, hrest⟩
    simp [hfirst, hrest]
  · simp [hfirst]

theorem ofText_joinPath {base name : String} (hbase : base ≠ "") (hname : isName name = true) :
    ofText (joinPath base name) = (ofText base).down [name] := by
  obtain ⟨first, rest, hpieces, hjoined⟩ := exists_pieces hbase hname
  have hroute : ofText base = ofPieces first (rest ++ [[]]) := by
    rcases hpieces with hpieces | ⟨hpieces, hne⟩
    · exact ofText_of_pieces hpieces
    · rw [ofText_of_pieces hpieces, ofPieces_concat_nil hne]
  have hstep : Step.ofPiece? name.toList = some (.name name) :=
    Step.ofPiece?_text (s := .name name) hname (by simp)
  rw [ofText_of_pieces hjoined, ofPieces_concat, hstep, hroute]
  rfl

theorem ofText_below {base : String} (hbase : base ≠ "") {names : List String}
    (hnames : ∀ n ∈ names, isName n = true) :
    ofText (below base names) = (ofText base).down names := by
  induction names generalizing base with
  | nil => simp [below, down]
  | cons name names ih =>
    obtain ⟨hname, hnames⟩ := List.forall_mem_cons.1 hnames
    rw [show below base (name :: names) = below (joinPath base name) names from rfl,
      ih (joinPath_ne_empty hbase name) hnames, ofText_joinPath hbase hname]
    simp [down]

theorem down_inj {r : Route} {names names' : List String} (h : r.down names = r.down names') :
    names = names' := by
  have hsteps := congrArg Route.steps h
  have hmap := List.append_cancel_left hsteps
  exact List.map_injective_iff.2 (fun _ _ heq => Step.name.inj heq) hmap

theorem walk_down (start : Place) (r : Route) (names : List String) :
    (r.down names).walk start = r.walk start ++ names := by
  rw [walk, down, List.foldl_append, foldl_walkStep_names]
  rfl

end Route

/-! ## Where paths lead -/

namespace FileSystem

variable {fs : FileSystem}

/-- The entry at the place that a path leads to is a regular file. -/
def HasFile (fs : FileSystem) (path : String) : Prop :=
  ∃ name bytes, fs.top.descend? ((Route.ofText path).walk fs.workingDirectory) =
    some (.file name bytes)

theorem follow_append (place : Place) (e : Entry) (pieces rest : List (List Char)) :
    fs.follow place e (pieces ++ rest) =
      (fs.follow place e pieces).bind fun found => fs.follow found.1 found.2 rest := by
  fun_induction follow fs place e pieces with
  | case1 place e => rfl
  | case2 place e piece pieces hfile =>
    rw [List.cons_append, follow, if_pos hfile]
    rfl
  | case3 place e piece pieces hdirectory hblank ih =>
    rw [List.cons_append, follow, if_neg hdirectory, if_pos hblank]
    exact ih
  | case4 place e pieces hdirectory up hup hblank ih =>
    rw [List.cons_append, follow, if_neg hdirectory, if_neg hblank, if_pos rfl, hup]
    exact ih
  | case5 place e pieces hdirectory hup hblank =>
    rw [List.cons_append, follow, if_neg hdirectory, if_neg hblank, if_pos rfl, hup]
    rfl
  | case6 place e piece pieces hdirectory hblank hup name hlong =>
    rw [List.cons_append, follow, if_neg hdirectory, if_neg hblank, if_neg hup]
    exact if_pos hlong
  | case7 place e piece pieces hdirectory hblank hup name hshort inner hchild ih =>
    rw [List.cons_append, follow, if_neg hdirectory, if_neg hblank, if_neg hup]
    dsimp only
    rw [if_neg hshort, hchild]
    exact ih
  | case8 place e piece pieces hdirectory hblank hup name hshort hchild =>
    rw [List.cons_append, follow, if_neg hdirectory, if_neg hblank, if_neg hup]
    dsimp only
    rw [if_neg hshort, hchild]
    rfl

/-- Pieces lead where their steps lead. -/
theorem follow_ok {place place' : Place} {e e' : Entry} {pieces : List (List Char)}
    (he : fs.top.descend? place = some e) (h : fs.follow place e pieces = .ok (place', e')) :
    fs.top.descend? place' = some e' ∧
      (pieces.filterMap Step.ofPiece?).foldl Route.walkStep place = place' := by
  fun_induction follow fs place e pieces with
  | case1 place e =>
    obtain ⟨rfl, rfl⟩ := Prod.mk.inj (Except.ok.inj h)
    exact ⟨he, rfl⟩
  | case3 place e piece pieces hdirectory hblank ih =>
    have hstep : Step.ofPiece? piece = none := if_pos hblank
    rw [List.filterMap_cons_none hstep]
    exact ih he h
  | case4 place e pieces hdirectory up hup hblank ih =>
    rw [List.filterMap_cons_some (show Step.ofPiece? ['.', '.'] = some .up from rfl)]
    exact ih hup h
  | case7 place e piece pieces hdirectory hblank hup name hshort inner hchild ih =>
    have hstep : Step.ofPiece? piece = some (.name name) := by
      rw [Step.ofPiece?, if_neg hblank, if_neg hup]
    have hinner : fs.top.descend? (place ++ [name]) = some inner := by
      rw [Entry.descend?_append, he]
      show (e.child? name).bind _ = _
      rw [hchild]
      rfl
    rw [List.filterMap_cons_some hstep]
    exact ih hinner h
  | _ => cases h

/-- A name is followed from where the path of its directory leads. -/
theorem follow_joinPath {base name : String} (hbase : base ≠ "") (hname : isName name = true)
    (place : Place) (e : Entry) :
    fs.follow place e (Text.splitAt '/' (joinPath base name).toList) =
      (fs.follow place e (Text.splitAt '/' base.toList)).bind fun found =>
        fs.follow found.1 found.2 [name.toList] := by
  obtain ⟨first, rest, hpieces, hjoined⟩ := exists_pieces hbase hname
  -- An empty piece stays where it is, but like a name it needs a directory.
  have hblank : ∀ place e,
      fs.follow place e [name.toList] = fs.follow place e [[], name.toList] := by
    intro place e
    cases e <;> rfl
  rcases hpieces with hpieces | ⟨hpieces, -⟩
  · rw [hjoined, hpieces, ← follow_append, List.cons_append, List.append_assoc,
      ← List.cons_append, ← List.cons_append, follow_append _ _ _ [name.toList], follow_append]
    simp only [hblank]
    rfl
  · rw [hjoined, hpieces, ← List.cons_append, follow_append]

theorem follow_below {base : String} (hbase : base ≠ "") {names : List String}
    (hnames : ∀ n ∈ names, isName n = true) (place : Place) (e : Entry) :
    fs.follow place e (Text.splitAt '/' (below base names).toList) =
      (fs.follow place e (Text.splitAt '/' base.toList)).bind fun found =>
        fs.follow found.1 found.2 (names.map String.toList) := by
  induction names generalizing base with
  | nil =>
    show fs.follow place e (Text.splitAt '/' base.toList) = _
    cases fs.follow place e (Text.splitAt '/' base.toList) <;> rfl
  | cons name names ih =>
    obtain ⟨hname, hnames⟩ := List.forall_mem_cons.1 hnames
    rw [show below base (name :: names) = below (joinPath base name) names from rfl,
      ih (joinPath_ne_empty hbase name) hnames, follow_joinPath hbase hname, List.map_cons,
      ← List.singleton_append]
    cases fs.follow place e (Text.splitAt '/' base.toList) with
    | error => rfl
    | ok found => exact (follow_append ..).symm

/-- The place that a path is followed from. -/
def startOf (fs : FileSystem) (path : String) : Place :=
  if path.toList.head? = some '/' then [] else fs.workingDirectory

theorem find_eq {path : String} (hzero : Char.ofNat 0 ∉ path.toList) (hne : path ≠ "")
    (hlimit : ¬ pathLimit < path.utf8ByteSize) :
    fs.find path = match fs.top.descend? (fs.startOf path) with
      | some e => fs.follow (fs.startOf path) e (Text.splitAt '/' path.toList)
      | none => .error .notFound := by
  have hzero' : ¬ path.toList.contains (Char.ofNat 0) = true := by simpa using hzero
  rw [find, if_neg hzero', if_neg hne, if_neg hlimit]
  rfl

/-- A path that leads somewhere is followed from an entry that is there. -/
theorem find_ok {path : String} {found : Place × Entry} (h : fs.find path = .ok found) :
    Char.ofNat 0 ∉ path.toList ∧ path ≠ "" ∧ ∃ e, fs.top.descend? (fs.startOf path) = some e ∧
      fs.follow (fs.startOf path) e (Text.splitAt '/' path.toList) = .ok found := by
  by_cases hzero : Char.ofNat 0 ∈ path.toList
  · rw [find, if_pos (by simpa using hzero)] at h
    cases h
  by_cases hne : path = ""
  · subst hne
    cases h
  by_cases hlimit : pathLimit < path.utf8ByteSize
  · rw [find, if_neg (by simpa using hzero), if_neg hne, if_pos hlimit] at h
    cases h
  rw [find_eq hzero hne hlimit] at h
  split at h
  · rename_i e he
    exact ⟨hzero, hne, e, he, h⟩
  · cases h

/-- The route that a path says leads where its pieces lead. -/
theorem walk_ofText {path : String} (hne : path ≠ "") :
    (Route.ofText path).walk fs.workingDirectory =
      ((Text.splitAt '/' path.toList).filterMap Step.ofPiece?).foldl Route.walkStep
        (fs.startOf path) := by
  obtain ⟨c, cs, hpath⟩ : ∃ c cs, path.toList = c :: cs :=
    List.exists_cons_of_ne_nil fun hnil => hne (String.toList_eq_nil_iff.1 hnil)
  obtain ⟨piece, pieces, hpieces⟩ := List.exists_cons_of_ne_nil (Text.splitAt_ne_nil '/' cs)
  by_cases hc : c = '/'
  · have hsplit : Text.splitAt '/' path.toList = [] :: piece :: pieces := by
      rw [hpath, Text.splitAt, if_pos (by simpa using hc), hpieces]
    rw [Route.ofText_of_pieces hsplit, hsplit, startOf, hpath, hc]
    rfl
  · have hsplit : Text.splitAt '/' path.toList = (c :: piece) :: pieces := by
      rw [hpath, Text.splitAt, if_neg (by simpa using hc), hpieces]
    have hstart : fs.startOf path = fs.workingDirectory := by
      rw [startOf, hpath]
      exact if_neg fun h => hc (Option.some.inj h)
    rw [Route.ofText_of_pieces hsplit, hsplit, hstart, Route.ofPieces, if_neg (by simp)]
    by_cases hdot : c :: piece = ['.']
    · rw [if_pos hdot, hdot]
      rfl
    · rw [if_neg hdot]
      cases hstep : Step.ofPiece? (c :: piece) with
      | none =>
        rw [List.filterMap_cons_none hstep]
        rfl
      | some step =>
        rw [List.filterMap_cons_some hstep]
        rfl

/-- The place and the entry that a path leads to are those of its route. -/
theorem descend?_of_find {path : String} {place : Place} {e : Entry}
    (h : fs.find path = .ok (place, e)) :
    fs.top.descend? place = some e ∧ (Route.ofText path).walk fs.workingDirectory = place := by
  obtain ⟨-, hne, e₀, he₀, hfollow⟩ := find_ok h
  rw [walk_ofText hne]
  exact follow_ok he₀ hfollow

theorem hasFile_of_find {path name : String} {place : Place} {bytes : List UInt8}
    (h : fs.find path = .ok (place, .file name bytes)) : fs.HasFile path := by
  obtain ⟨hentry, hplace⟩ := descend?_of_find h
  exact ⟨name, bytes, hplace ▸ hentry⟩

theorem isFile_of_find {path name : String} {place : Place} {bytes : List UInt8}
    (h : fs.find path = .ok (place, .file name bytes)) : fs.isFile path = true := by
  rw [isFile, h]

theorem not_mem_below {base : String} {names : List String} {c : Char} (hslash : c ≠ '/')
    (hbase : c ∉ base.toList) (hnames : ∀ n ∈ names, c ∉ n.toList) :
    c ∉ (below base names).toList := by
  induction names generalizing base with
  | nil => exact hbase
  | cons name names ih =>
    obtain ⟨hname, hnames⟩ := List.forall_mem_cons.1 hnames
    show c ∉ (below (joinPath base name) names).toList
    apply ih _ hnames
    unfold joinPath
    split <;> simp [hslash, hbase, hname]

/-- The path of an entry leads to the entry, or is too long. -/
theorem find_below {base : String} {place : Place} {e inner : Entry}
    (hfind : fs.find base = .ok (place, e)) {names : List String}
    (hnames : ∀ n ∈ names, isEntryName n = true) (hinner : e.descend? names = some inner) :
    fs.find (below base names) = .ok (place ++ names, inner) ∨
      fs.find (below base names) = .error .nameTooLong := by
  obtain ⟨hzero, hbase, e₀, he₀, hfollow⟩ := find_ok hfind
  have hproper : ∀ n ∈ names, isName n = true := fun n hn => (isEntryName_iff.1 (hnames n hn)).1
  have hzero' : Char.ofNat 0 ∉ (below base names).toList :=
    not_mem_below (by decide) hzero fun n hn => (isEntryName_iff.1 (hnames n hn)).2
  obtain ⟨hne, y, hy⟩ := exists_toList_below hbase names
  have hstart : fs.startOf (below base names) = fs.startOf base := by
    obtain ⟨c, cs, hcs⟩ := List.exists_cons_of_ne_nil (mt String.toList_eq_nil_iff.1 hbase)
    rw [startOf, startOf, hy, hcs]
    rfl
  by_cases hlimit : pathLimit < (below base names).utf8ByteSize
  · right
    rw [find, if_neg (by simpa using hzero'), if_neg hne, if_pos hlimit]
  · rw [find_eq hzero' hne hlimit, hstart, he₀]
    dsimp only
    rw [follow_below hbase hproper, hfollow]
    rw [← List.append_nil (names.map String.toList)]
    exact follow_names hproper [] hinner

end FileSystem

end Outline
