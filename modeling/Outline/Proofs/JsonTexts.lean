import Outline.Proofs.JsonLines

/-!
# The written form tells the value

Different JSON values are written differently, and a written value tells where it ends: if two
values, with something behind each, give the same text, they are the same value with the same behind
it (`tells_render`). Only a number needs that what follows is no digit. So a line of output tells
the value on it (`line_injective`).
-/

namespace Outline.Json

/-! ## Strings -/

/-- The number that a hexadecimal digit stands for. -/
def hexValue (c : Char) : Nat :=
  if c.toNat < 58 then c.toNat - 48 else c.toNat - 87

/-- Read the first character of a written string. -/
def readChar? : List Char → Option (Char × List Char)
  | '\\' :: '"' :: rest => some ('"', rest)
  | '\\' :: '\\' :: rest => some ('\\', rest)
  | '\\' :: 'b' :: rest => some ('\x08', rest)
  | '\\' :: 'f' :: rest => some ('\x0c', rest)
  | '\\' :: 'n' :: rest => some ('\n', rest)
  | '\\' :: 'r' :: rest => some ('\r', rest)
  | '\\' :: 't' :: rest => some ('\t', rest)
  | '\\' :: 'u' :: '0' :: '0' :: high :: low :: rest =>
    some (Char.ofNat (16 * hexValue high + hexValue low), rest)
  | '\\' :: _ => none
  | '"' :: _ => none
  | c :: rest => some (c, rest)
  | [] => none

theorem hexValue_hexDigit {n : Nat} (h : n < 16) : hexValue (hexDigit n) = n := by
  have hall : ∀ n < 16, hexValue (hexDigit n) = n := by decide
  exact hall n h

theorem readChar?_escapeChar (c : Char) (rest : List Char) :
    readChar? (escapeChar c ++ rest) = some (c, rest) := by
  unfold escapeChar
  split
  · rfl
  · rfl
  · rfl
  · rfl
  · rfl
  · rfl
  · rfl
  · rename_i hquote hslash _ _ _ _ _
    split_ifs with hsmall
    · have hhigh := hexValue_hexDigit (show c.toNat / 16 < 16 by omega)
      have hlow := hexValue_hexDigit (show c.toNat % 16 < 16 by omega)
      have hc : 16 * (c.toNat / 16) + c.toNat % 16 = c.toNat := by omega
      simp only [List.cons_append, List.nil_append, readChar?, hhigh, hlow, hc, Char.ofNat_toNat]
    · rw [List.cons_append, List.nil_append]
      unfold readChar?
      split <;> simp_all

/-- The characters of a string with what is behind its closing quote. -/
theorem flatMap_escapeChar_inj {cs cs' s s' : List Char}
    (h : cs.flatMap escapeChar ++ '"' :: s = cs'.flatMap escapeChar ++ '"' :: s') :
    cs = cs' ∧ s = s' := by
  -- the closing quote is read as no character
  induction cs generalizing cs' with
  | nil =>
    cases cs' with
    | nil => exact ⟨rfl, (List.cons.inj h).2⟩
    | cons c cs' =>
      have hread := readChar?_escapeChar c (cs'.flatMap escapeChar ++ '"' :: s')
      rw [List.flatMap_cons, List.append_assoc] at h
      rw [← h] at hread
      cases hread
  | cons c cs ih =>
    have hread := readChar?_escapeChar c (cs.flatMap escapeChar ++ '"' :: s)
    rw [List.flatMap_cons, List.append_assoc] at h
    rw [h] at hread
    cases cs' with
    | nil => cases hread
    | cons d cs' =>
      rw [List.flatMap_cons, List.append_assoc, readChar?_escapeChar] at hread
      obtain ⟨rfl, hrest⟩ := Prod.mk.inj (Option.some.inj hread)
      obtain ⟨rfl, rfl⟩ := ih hrest.symm
      exact ⟨rfl, rfl⟩

theorem toList_quote (s : String) :
    (quote s).toList = '"' :: (s.toList.flatMap escapeChar ++ ['"']) := by
  simp [quote]

theorem quote_append_inj {s t : String} {u v : List Char}
    (h : (quote s).toList ++ u = (quote t).toList ++ v) : s = t ∧ u = v := by
  rw [toList_quote, toList_quote, List.cons_append, List.cons_append, List.append_assoc,
    List.append_assoc] at h
  obtain ⟨hchars, hrest⟩ := flatMap_escapeChar_inj (List.cons.inj h).2
  exact ⟨String.toList_inj.1 hchars, hrest⟩

/-! ## Numbers -/

/-- A text that does not start with a digit. -/
def NoDigit (s : List Char) : Prop :=
  ∀ c, s.head? = some c → c.isDigit = false

theorem noDigit_cons {c : Char} (h : c.isDigit = false) (s : List Char) : NoDigit (c :: s) := by
  intro d hd
  rw [List.head?_cons] at hd
  rw [← Option.some.inj hd]
  exact h

theorem digits_append_inj {xs ys s t : List Char} (hxs : ∀ c ∈ xs, c.isDigit = true)
    (hys : ∀ c ∈ ys, c.isDigit = true) (hs : NoDigit s) (ht : NoDigit t)
    (h : xs ++ s = ys ++ t) : xs = ys ∧ s = t := by
  induction xs generalizing ys with
  | nil =>
    cases ys with
    | nil => exact ⟨rfl, h⟩
    | cons y ys =>
      have hy := hys y (List.mem_cons_self ..)
      rw [hs y (by rw [show s = y :: (ys ++ t) from h, List.head?_cons])] at hy
      cases hy
  | cons x xs ih =>
    cases ys with
    | nil =>
      have hx := hxs x (List.mem_cons_self ..)
      rw [ht x (by rw [show t = x :: (xs ++ s) from h.symm, List.head?_cons])] at hx
      cases hx
    | cons y ys =>
      obtain ⟨rfl, hrest⟩ := List.cons.inj h
      obtain ⟨rfl, rfl⟩ := ih (fun c hc => hxs c (List.mem_cons_of_mem _ hc))
        (fun c hc => hys c (List.mem_cons_of_mem _ hc)) hrest
      exact ⟨rfl, rfl⟩

theorem isDigit_of_mem_repr {n : Nat} {c : Char} (h : c ∈ n.repr.toList) : c.isDigit = true := by
  rw [Nat.toList_repr] at h
  exact Nat.isDigit_of_mem_toDigits (by decide) (by decide) h

/-! ## Forms that tell what is written -/

section Tells

variable {α : Type} {w : α → List Char}

/-- In the form `w`, the value `x` is told from every other value and from what follows. -/
def Tells (w : α → List Char) (x : α) : Prop :=
  ∀ (y : α) (s t : List Char), NoDigit s → NoDigit t → w x ++ s = w y ++ t → x = y ∧ s = t

theorem tells_number (n : Nat) : Tells (fun n : Nat => n.repr.toList) n := by
  intro m s t hs ht h
  obtain ⟨hdigits, hrest⟩ := digits_append_inj (fun _ hc => isDigit_of_mem_repr hc)
    (fun _ hc => isDigit_of_mem_repr hc) hs ht h
  rw [Nat.toList_repr, Nat.toList_repr] at hdigits
  refine ⟨?_, hrest⟩
  rw [← Nat.ofDigitChars_ten_toDigits (n := n), hdigits, Nat.ofDigitChars_ten_toDigits]

/-- The written items behind the first one of a sequence, each after a comma. -/
def behind (w : α → List Char) (xs : List α) : List Char :=
  xs.flatMap fun x => ',' :: w x

theorem noDigit_behind (xs : List α) {close : Char} (hclose : close.isDigit = false)
    (s : List Char) : NoDigit (behind w xs ++ close :: s) := by
  cases xs with
  | nil => exact noDigit_cons hclose s
  | cons x xs => exact noDigit_cons (by decide) _

theorem behind_append_inj {close : Char} (hdigit : close.isDigit = false) (hcomma : close ≠ ',')
    {xs ys : List α} (htells : ∀ x ∈ xs, Tells w x) {s t : List Char}
    (h : behind w xs ++ close :: s = behind w ys ++ close :: t) : xs = ys ∧ s = t := by
  induction xs generalizing ys with
  | nil =>
    cases ys with
    | nil => exact ⟨rfl, (List.cons.inj h).2⟩
    | cons y ys => exact absurd (List.cons.inj h).1 hcomma
  | cons x xs ih =>
    cases ys with
    | nil => exact absurd (List.cons.inj h).1.symm hcomma
    | cons y ys =>
      have hrest : w x ++ (behind w xs ++ close :: s) = w y ++ (behind w ys ++ close :: t) := by
        simpa [behind] using h
      obtain ⟨rfl, hbehind⟩ := htells x (List.mem_cons_self ..) y _ _
        (noDigit_behind xs hdigit s) (noDigit_behind ys hdigit t) hrest
      obtain ⟨rfl, rfl⟩ := ih (fun x hx => htells x (List.mem_cons_of_mem _ hx)) hbehind
      exact ⟨rfl, rfl⟩

/-- The written items of a sequence, with commas between them. -/
def sequence (w : α → List Char) : List α → List Char
  | [] => []
  | x :: xs => w x ++ behind w xs

/-- A sequence is told by its items, if none of them starts with the bracket behind it. -/
theorem sequence_append_inj {close : Char} (hdigit : close.isDigit = false) (hcomma : close ≠ ',')
    (hopen : ∀ x, ∃ c cs, w x = c :: cs ∧ c ≠ close) {xs ys : List α}
    (htells : ∀ x ∈ xs, Tells w x) {s t : List Char}
    (h : sequence w xs ++ close :: s = sequence w ys ++ close :: t) : xs = ys ∧ s = t := by
  cases xs with
  | nil =>
    cases ys with
    | nil => exact ⟨rfl, (List.cons.inj h).2⟩
    | cons y ys =>
      obtain ⟨c, cs, hy, hne⟩ := hopen y
      rw [sequence, sequence, hy] at h
      exact absurd (List.cons.inj h).1.symm hne
  | cons x xs =>
    cases ys with
    | nil =>
      obtain ⟨c, cs, hx, hne⟩ := hopen x
      rw [sequence, sequence, hx] at h
      exact absurd (List.cons.inj h).1 hne
    | cons y ys =>
      rw [sequence, sequence, List.append_assoc, List.append_assoc] at h
      obtain ⟨rfl, hbehind⟩ := htells x (List.mem_cons_self ..) y _ _
        (noDigit_behind xs hdigit s) (noDigit_behind ys hdigit t) h
      obtain ⟨rfl, rfl⟩ := behind_append_inj hdigit hcomma
        (fun x hx => htells x (List.mem_cons_of_mem _ hx)) hbehind
      exact ⟨rfl, rfl⟩

theorem toList_intercalate_map (f : α → String) (xs : List α) :
    (",".intercalate (xs.map f)).toList = sequence (fun x => (f x).toList) xs := by
  induction xs with
  | nil => rfl
  | cons x xs ih =>
    cases xs with
    | nil => simp [sequence, behind]
    | cons y ys =>
      rw [List.map_cons, List.map_cons, String.intercalate_cons_cons, ← List.map_cons,
        String.toList_append, String.toList_append, ih]
      simp [sequence, behind]

end Tells

/-! ## Values -/

/-- The written form of a member of an object. -/
def renderMember (m : String × Json) : String :=
  quote m.1 ++ ":" ++ render m.2

theorem renderItems_eq_map (js : List Json) : renderItems js = js.map render := by
  induction js with
  | nil => rfl
  | cons j js ih => rw [renderItems, ih, List.map_cons]

theorem renderMembers_eq_map (ms : List (String × Json)) :
    renderMembers ms = ms.map renderMember := by
  induction ms with
  | nil => rfl
  | cons m ms ih => rw [renderMembers, ih, List.map_cons, renderMember]

theorem toList_render_array (js : List Json) :
    (render (.array js)).toList = '[' :: (sequence (fun j => (render j).toList) js ++ [']']) := by
  rw [render, renderItems_eq_map, String.toList_append, String.toList_append,
    toList_intercalate_map]
  rfl

theorem toList_render_object (ms : List (String × Json)) :
    (render (.object ms)).toList =
      '\x7b' :: (sequence (fun m => (renderMember m).toList) ms ++ ['\x7d']) := by
  rw [render, renderMembers_eq_map, String.toList_append, String.toList_append,
    toList_intercalate_map]
  rfl

/-- What the first character of a written value tells. -/
inductive Shape where
  | null
  | bool (value : Bool)
  | number
  | string
  | array
  | object

def shape : Json → Shape
  | .null => .null
  | .bool b => .bool b
  | .number _ => .number
  | .string _ => .string
  | .array _ => .array
  | .object _ => .object

/-- The shape of the values that start with a character. -/
def Shape.ofChar? (c : Char) : Option Shape :=
  if c = 'n' then some null
  else if c = 't' then some (bool true)
  else if c = 'f' then some (bool false)
  else if c = '"' then some string
  else if c = '[' then some array
  else if c = '\x7b' then some object
  else if c.isDigit then some number
  else none

theorem Shape.ofChar?_of_isDigit {c : Char} (h : c.isDigit = true) : ofChar? c = some number := by
  have hne : ∀ d : Char, d.isDigit = false → c ≠ d := by
    rintro d hd rfl
    rw [h] at hd
    cases hd
  simp [ofChar?, hne 'n' (by decide), hne 't' (by decide), hne 'f' (by decide),
    hne '"' (by decide), hne '[' (by decide), hne '\x7b' (by decide), h]

theorem exists_toList_render (j : Json) :
    ∃ c cs, (render j).toList = c :: cs ∧ Shape.ofChar? c = some j.shape := by
  cases j with
  | null => exact ⟨'n', _, rfl, rfl⟩
  | bool b =>
    cases b with
    | true => exact ⟨'t', _, rfl, rfl⟩
    | false => exact ⟨'f', _, rfl, rfl⟩
  | number n =>
    cases hdigits : n.repr.toList with
    | nil => exact absurd (String.toList_eq_nil_iff.1 hdigits) Nat.repr_ne_empty
    | cons c cs =>
      have hc : c ∈ n.repr.toList := by
        rw [hdigits]
        exact List.mem_cons_self ..
      exact ⟨c, cs, hdigits, Shape.ofChar?_of_isDigit (isDigit_of_mem_repr hc)⟩
  | string s => exact ⟨'"', _, toList_quote s, rfl⟩
  | array js => exact ⟨'[', _, toList_render_array js, rfl⟩
  | object ms => exact ⟨'\x7b', _, toList_render_object ms, rfl⟩

theorem shape_eq_of_append {j k : Json} {s t : List Char}
    (h : (render j).toList ++ s = (render k).toList ++ t) : j.shape = k.shape := by
  obtain ⟨c, cs, hj, hc⟩ := exists_toList_render j
  obtain ⟨d, ds, hk, hd⟩ := exists_toList_render k
  rw [hj, hk] at h
  rw [(List.cons.inj h).1] at hc
  exact Option.some.inj (hc.symm.trans hd)

theorem tells_member {m : String × Json} (h : Tells (fun j => (render j).toList) m.2) :
    Tells (fun m => (renderMember m).toList) m := by
  intro n s t hs ht heq
  simp only [renderMember, String.toList_append, List.append_assoc] at heq
  obtain ⟨hkey, hvalue⟩ := quote_append_inj heq
  obtain ⟨hvalue, hrest⟩ := h n.2 s t hs ht (List.cons.inj hvalue).2
  exact ⟨Prod.ext hkey hvalue, hrest⟩

theorem array_append_inj {js : List Json} (hjs : ∀ j ∈ js, Tells (fun j => (render j).toList) j)
    {ks : List Json} {s t : List Char}
    (h : (render (.array js)).toList ++ s = (render (.array ks)).toList ++ t) :
    js = ks ∧ s = t := by
  have hopen : ∀ j, ∃ c cs, (render j).toList = c :: cs ∧ c ≠ ']' := by
    intro j
    obtain ⟨c, cs, hj, hc⟩ := exists_toList_render j
    refine ⟨c, cs, hj, ?_⟩
    rintro rfl
    cases hc
  rw [toList_render_array, toList_render_array, List.cons_append, List.cons_append,
    List.append_assoc, List.append_assoc] at h
  exact sequence_append_inj (by decide) (by decide) hopen hjs (List.cons.inj h).2

theorem object_append_inj {ms : List (String × Json)}
    (hms : ∀ m ∈ ms, Tells (fun j => (render j).toList) m.2) {ns : List (String × Json)}
    {s t : List Char} (h : (render (.object ms)).toList ++ s = (render (.object ns)).toList ++ t) :
    ms = ns ∧ s = t := by
  have hopen : ∀ m, ∃ c cs, (renderMember m).toList = c :: cs ∧ c ≠ '\x7d' := by
    intro m
    obtain ⟨key, value⟩ := m
    simp only [renderMember, String.toList_append, toList_quote, List.cons_append]
    exact ⟨'"', _, rfl, by decide⟩
  rw [toList_render_object, toList_render_object, List.cons_append, List.cons_append,
    List.append_assoc, List.append_assoc] at h
  exact sequence_append_inj (by decide) (by decide) hopen (fun m hm => tells_member (hms m hm))
    (List.cons.inj h).2

mutual

theorem tells_render : ∀ j : Json, Tells (fun j => (render j).toList) j
  | .null => by
    intro k s t hs ht h
    cases k with
    | null => exact ⟨rfl, List.append_cancel_left h⟩
    | _ => cases shape_eq_of_append h
  | .bool b => by
    intro k s t hs ht h
    cases k with
    | bool c =>
      cases shape_eq_of_append h
      exact ⟨rfl, List.append_cancel_left h⟩
    | _ => cases shape_eq_of_append h
  | .number n => by
    intro k s t hs ht h
    cases k with
    | number m =>
      obtain ⟨rfl, rfl⟩ := tells_number n m s t hs ht h
      exact ⟨rfl, rfl⟩
    | _ => cases shape_eq_of_append h
  | .string u => by
    intro k s t hs ht h
    cases k with
    | string v =>
      obtain ⟨rfl, rfl⟩ := quote_append_inj h
      exact ⟨rfl, rfl⟩
    | _ => cases shape_eq_of_append h
  | .array js => by
    have hjs := tells_items js
    intro k s t hs ht h
    cases k with
    | array ks =>
      obtain ⟨rfl, rfl⟩ := array_append_inj hjs h
      exact ⟨rfl, rfl⟩
    | _ => cases shape_eq_of_append h
  | .object ms => by
    have hms := tells_members ms
    intro k s t hs ht h
    cases k with
    | object ns =>
      obtain ⟨rfl, rfl⟩ := object_append_inj hms h
      exact ⟨rfl, rfl⟩
    | _ => cases shape_eq_of_append h

theorem tells_items : ∀ js : List Json, ∀ j ∈ js, Tells (fun j => (render j).toList) j
  | [] => by
    intro j hj
    cases hj
  | i :: is => by
    have hi := tells_render i
    have his := tells_items is
    intro j hj
    rcases List.mem_cons.1 hj with rfl | hj
    · exact hi
    · exact his j hj

theorem tells_members :
    ∀ ms : List (String × Json), ∀ m ∈ ms, Tells (fun j => (render j).toList) m.2
  | [] => by
    intro m hm
    cases hm
  | (key, value) :: ms => by
    have hvalue := tells_render value
    have hms := tells_members ms
    intro m hm
    rcases List.mem_cons.1 hm with rfl | hm
    · exact hvalue
    · exact hms m hm

end

theorem line_injective {j k : Json} (h : j.line = k.line) : j = k := by
  have hbreak : NoDigit ['\n'] := noDigit_cons (by decide) []
  refine (tells_render j k ['\n'] ['\n'] hbreak hbreak ?_).1
  have hchars := congrArg String.toList h
  rwa [line, line, String.toList_append, String.toList_append] at hchars

end Outline.Json
