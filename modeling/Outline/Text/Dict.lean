/-!
# Dictionaries

A dictionary from strings to strings whose entries are listed in strictly increasing key order.
The order is part of the type, so two dictionaries with the same entries are equal.
-/

namespace Outline

/-- Entries listed in strictly increasing key order. -/
abbrev KeysIncrease (entries : List (String × String)) : Prop :=
  entries.Pairwise fun a b => a.1 < b.1

/-- A dictionary from strings to strings. -/
structure Dict where
  /-- The entries, by increasing key. -/
  entries : List (String × String)
  /-- No key occurs twice and the keys increase. -/
  increasing : KeysIncrease entries
deriving DecidableEq

namespace Dict

instance : Inhabited Dict := ⟨[], .nil⟩

/-- The dictionary without entries. -/
def empty : Dict := ⟨[], .nil⟩

/-- Put an entry in its place, replacing the one with the same key. -/
def insertEntry (key value : String) : List (String × String) → List (String × String)
  | [] => [(key, value)]
  | e :: es =>
    if key < e.1 then (key, value) :: e :: es
    else if e.1 < key then e :: insertEntry key value es
    else (key, value) :: es

theorem mem_insertEntry {key value : String} {es : List (String × String)} {x : String × String}
    (h : x ∈ insertEntry key value es) : x = (key, value) ∨ x ∈ es := by
  induction es with
  | nil => simpa [insertEntry] using h
  | cons e es ih =>
    unfold insertEntry at h
    split at h
    · simpa using h
    · split at h
      · rcases List.mem_cons.1 h with h | h
        · exact .inr (h ▸ List.mem_cons_self ..)
        · exact (ih h).imp_right (List.mem_cons_of_mem _)
      · rcases List.mem_cons.1 h with h | h
        · exact .inl h
        · exact .inr (List.mem_cons_of_mem _ h)

/-- Two strings neither of which comes before the other are equal. -/
theorem eq_of_not_lt {a b : String} (h : ¬ a < b) (h' : ¬ b < a) : a = b :=
  String.le_antisymm h' h

theorem keysIncrease_insertEntry {key value : String} {es : List (String × String)}
    (h : KeysIncrease es) : KeysIncrease (insertEntry key value es) := by
  induction es with
  | nil => simp [insertEntry, KeysIncrease]
  | cons e es ih =>
    obtain ⟨he, hes⟩ := List.pairwise_cons.1 h
    unfold insertEntry
    split
    · rename_i hlt
      refine List.pairwise_cons.2 ⟨fun x hx => ?_, h⟩
      rcases List.mem_cons.1 hx with rfl | hx
      · exact hlt
      · exact String.lt_trans hlt (he x hx)
    · rename_i hnlt
      split
      · rename_i hlt
        refine List.pairwise_cons.2 ⟨fun x hx => ?_, ih hes⟩
        rcases mem_insertEntry hx with rfl | hx
        · exact hlt
        · exact he x hx
      · rename_i hngt
        have heq : key = e.1 := eq_of_not_lt hnlt hngt
        exact List.pairwise_cons.2 ⟨fun x hx => heq ▸ he x hx, hes⟩

/-- Bind a key to a value, replacing an earlier binding of the key. -/
def insert (d : Dict) (key value : String) : Dict :=
  ⟨insertEntry key value d.entries, keysIncrease_insertEntry d.increasing⟩

/-- The value bound to a key. -/
def get? (d : Dict) (key : String) : Option String :=
  d.entries.lookup key

/-- Whether a key is bound. -/
def contains (d : Dict) (key : String) : Bool :=
  (d.get? key).isSome

/-- The bound keys, increasing. -/
def keys (d : Dict) : List String :=
  d.entries.map Prod.fst

/-- The dictionary with a single entry. -/
def single (key value : String) : Dict :=
  empty.insert key value

/-- Bind the given entries one after the other; of two entries with one key the later wins. -/
def insertAll (d : Dict) (es : List (String × String)) : Dict :=
  es.foldl (fun d e => d.insert e.1 e.2) d

/-- The dictionary of a list of entries; of two entries with one key the later wins. -/
def ofList (es : List (String × String)) : Dict :=
  empty.insertAll es

/-- Whether nothing is bound. -/
def isEmpty (d : Dict) : Bool :=
  d.entries.isEmpty

end Dict

end Outline
