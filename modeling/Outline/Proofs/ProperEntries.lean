import Outline.FileSystem

/-!
# Proper entries

In a proper directory every entry is found by its name (`child?_of_mem`). Whatever is found in a
file system is proper, and the names on the way to it are allowed (`proper_of_descend?`).
-/

namespace Outline

theorem isName_iff {name : String} :
    isName name = true ↔ name ≠ "" ∧ name ≠ "." ∧ name ≠ ".." ∧ '/' ∉ name.toList := by
  simp [isName, and_assoc]

theorem isEntryName_iff {name : String} :
    isEntryName name = true ↔ isName name = true ∧ Char.ofNat 0 ∉ name.toList := by
  simp [isEntryName]

namespace Entry

theorem proper_of_mem {es : List Entry} (hes : areProper es = true) {e : Entry} (he : e ∈ es) :
    isEntryName e.name = true ∧ e.isProper = true := by
  induction es with
  | nil => cases he
  | cons e' es ih =>
    obtain ⟨hfirst, hes⟩ := areProper_cons_iff.1 hes
    rcases List.mem_cons.1 he with rfl | he
    · exact hfirst
    · exact ih hes he

theorem isProper_directory_iff {n : String} {es : List Entry} :
    (directory n es).isProper = true ↔ (es.map name).Nodup ∧ areProper es = true := by
  rw [isProper, Bool.and_eq_true, decide_eq_true_iff]

/-- An entry is found by its name. -/
theorem child?_of_mem {n : String} {es : List Entry} (hnodup : (es.map name).Nodup) {e : Entry}
    (he : e ∈ es) : (directory n es).child? e.name = some e := by
  show es.find? (·.name == e.name) = some e
  induction es with
  | nil => cases he
  | cons e' es ih =>
    obtain ⟨hfirst, hnodup⟩ := List.nodup_cons.1 hnodup
    rcases List.mem_cons.1 he with rfl | he
    · simp
    · have hne : ¬ (e'.name == e.name) = true := by
        intro heq
        exact hfirst (beq_iff_eq.1 heq ▸ List.mem_map_of_mem he)
      rw [List.find?_cons_of_neg (p := fun x : Entry => x.name == e.name) hne]
      exact ih hnodup he

theorem descend?_of_mem {n : String} {es : List Entry} (hnodup : (es.map name).Nodup) {e : Entry}
    (he : e ∈ es) (names : List String) :
    (directory n es).descend? (e.name :: names) = e.descend? names := by
  rw [descend?, child?_of_mem hnodup he]
  rfl

theorem proper_of_child? {e e' : Entry} (he : e.isProper = true) {n : String}
    (h : e.child? n = some e') : isEntryName n = true ∧ e'.isProper = true := by
  cases e with
  | file => cases h
  | directory m es =>
    have hmem : e' ∈ es := List.mem_of_find?_eq_some h
    have hname : e'.name = n := by simpa using List.find?_some h
    exact hname ▸ proper_of_mem (isProper_directory_iff.1 he).2 hmem

/-- On the way down all is proper. -/
theorem proper_of_descend? {e e' : Entry} (he : e.isProper = true) {place : Place}
    (h : e.descend? place = some e') :
    (∀ n ∈ place, isEntryName n = true) ∧ e'.isProper = true := by
  induction place generalizing e with
  | nil => exact ⟨fun n hn => absurd hn List.not_mem_nil, Option.some.inj h ▸ he⟩
  | cons n ns ih =>
    obtain ⟨inner, hinner, h⟩ := Option.bind_eq_some_iff.1 h
    obtain ⟨hname, hproper⟩ := proper_of_child? he hinner
    obtain ⟨hnames, hproper'⟩ := ih hproper h
    exact ⟨List.forall_mem_cons.2 ⟨hname, hnames⟩, hproper'⟩

theorem descend?_append (e : Entry) (place place' : Place) :
    e.descend? (place ++ place') = (e.descend? place).bind (·.descend? place') := by
  induction place generalizing e with
  | nil => rfl
  | cons n ns ih =>
    rw [List.cons_append, descend?, descend?, Option.bind_assoc]
    exact congrArg _ (funext ih)

end Entry

namespace FileSystem

variable {fs : FileSystem} {place : Place} {e : Entry}

theorem isProper_of_descend? (h : fs.top.descend? place = some e) : e.isProper = true :=
  (Entry.proper_of_descend? fs.root.isProper h).2

theorem isName_of_descend? (h : fs.top.descend? place = some e) :
    ∀ n ∈ place, isName n = true := fun n hn =>
  (isEntryName_iff.1 ((Entry.proper_of_descend? fs.root.isProper h).1 n hn)).1

end FileSystem

end Outline
