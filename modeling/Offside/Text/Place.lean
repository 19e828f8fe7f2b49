/-!
Byte offsets into a text. A text is a list of characters, an offset counts the bytes of its UTF-8
form, and only an offset between two characters cuts the text in two: `dropBytes?_eq_some_iff` and
`takeBytes?_eq_some_iff` say what the parts are.
-/

namespace Offside

namespace Text

def byteLength (text : List Char) : Nat := text.foldr (fun c n => c.utf8Size + n) 0

@[simp] theorem byteLength_nil : byteLength [] = 0 := rfl

@[simp] theorem byteLength_cons (c : Char) (text : List Char) :
    byteLength (c :: text) = c.utf8Size + byteLength text := rfl

@[simp] theorem byteLength_append (a b : List Char) :
    byteLength (a ++ b) = byteLength a + byteLength b := by
  induction a with
  | nil => rw [List.nil_append, byteLength_nil, Nat.zero_add]
  | cons c a ih => rw [List.cons_append, byteLength_cons, byteLength_cons, ih, Nat.add_assoc]

/-- The text behind an offset, unless that lies inside a character or past the end. -/
def dropBytes? : Nat → List Char → Option (List Char)
  | 0, rest => some rest
  | _ + 1, [] => none
  | n + 1, c :: rest =>
    if c.utf8Size ≤ n + 1 then dropBytes? (n + 1 - c.utf8Size) rest else none

/-- Takes characters that make up the given number of bytes, behind those already taken, which are
held in reverse. -/
def takeBytesOnto? (taken : List Char) : Nat → List Char → Option (List Char)
  | 0, _ => some taken.reverse
  | _ + 1, [] => none
  | n + 1, c :: rest =>
    if c.utf8Size ≤ n + 1 then takeBytesOnto? (c :: taken) (n + 1 - c.utf8Size) rest else none

/-- The text before an offset, unless that lies inside a character or past the end. -/
def takeBytes? (n : Nat) (text : List Char) : Option (List Char) := takeBytesOnto? [] n text

/-- The text between two offsets, if both cut the text and are in order. -/
def slice? (start stop : Nat) (text : List Char) : Option (List Char) :=
  if start ≤ stop then (dropBytes? start text).bind (takeBytes? (stop - start)) else none

theorem byteLength_eq_zero_iff {text : List Char} : byteLength text = 0 ↔ text = [] := by
  cases text with
  | nil => simp
  | cons c text =>
    have := c.utf8Size_pos
    simp only [byteLength_cons, reduceCtorEq, iff_false]
    omega

theorem dropBytes?_eq_some_iff {n : Nat} {text rest : List Char} :
    dropBytes? n text = some rest ↔ ∃ a, text = a ++ rest ∧ byteLength a = n := by
  induction text generalizing n with
  | nil =>
    cases n with
    | zero =>
      simp only [dropBytes?, Option.some.injEq, byteLength_eq_zero_iff]
      exact ⟨fun h => ⟨[], h, rfl⟩, fun ⟨a, h, ha⟩ => by simpa [ha] using h⟩
    | succ n =>
      simp only [dropBytes?, reduceCtorEq, false_iff, not_exists, not_and]
      intro a h
      simp [(List.append_eq_nil_iff.1 h.symm).1]
  | cons c text ih =>
    have hc := c.utf8Size_pos
    cases n with
    | zero =>
      simp only [dropBytes?, Option.some.injEq, byteLength_eq_zero_iff]
      exact ⟨fun h => ⟨[], h, rfl⟩, fun ⟨a, h, ha⟩ => by simpa [ha] using h⟩
    | succ n =>
      simp only [dropBytes?]
      split
      · rename_i hle
        rw [ih]
        constructor
        · rintro ⟨a, rfl, ha⟩
          exact ⟨c :: a, rfl, by simp only [byteLength_cons]; omega⟩
        · rintro ⟨a, h, ha⟩
          cases a with
          | nil => simp at ha
          | cons d a =>
            obtain ⟨rfl, rfl⟩ := List.cons_eq_cons.1 h
            exact ⟨a, rfl, by simp only [byteLength_cons] at ha; omega⟩
      · rename_i hle
        simp only [reduceCtorEq, false_iff, not_exists, not_and]
        intro a h ha
        cases a with
        | nil => simp at ha
        | cons d a =>
          obtain ⟨rfl, rfl⟩ := List.cons_eq_cons.1 h
          simp only [byteLength_cons] at ha
          omega

theorem dropBytes?_append (a : List Char) (n : Nat) (rest : List Char) :
    dropBytes? (byteLength a + n) (a ++ rest) = dropBytes? n rest := by
  induction a with
  | nil => simp
  | cons c a ih =>
    obtain ⟨k, hk⟩ := Nat.exists_eq_add_one.2 c.utf8Size_pos
    have hsucc : byteLength (c :: a) + n = k + (byteLength a + n) + 1 := by
      rw [byteLength_cons]
      omega
    have hsub : k + (byteLength a + n) + 1 - c.utf8Size = byteLength a + n := by omega
    rw [hsucc, List.cons_append, dropBytes?, if_pos (by omega), hsub, ih]

theorem takeBytesOnto?_eq (taken : List Char) (n : Nat) (text : List Char) :
    takeBytesOnto? taken n text =
      (dropBytes? n text).map fun rest =>
        taken.reverse ++ text.take (text.length - rest.length) := by
  induction text generalizing taken n with
  | nil => cases n <;> simp [takeBytesOnto?, dropBytes?]
  | cons c text ih =>
    cases n with
    | zero => simp [takeBytesOnto?, dropBytes?]
    | succ n =>
      simp only [takeBytesOnto?, dropBytes?]
      split
      · rw [ih]
        cases h : dropBytes? (n + 1 - c.utf8Size) text with
        | none => rfl
        | some rest =>
          obtain ⟨a, rfl, -⟩ := dropBytes?_eq_some_iff.1 h
          have hlen : (c :: (a ++ rest)).length - rest.length = a.length + 1 := by
            simp only [List.length_cons, List.length_append]
            omega
          simp only [Option.map_some, hlen]
          simp
      · rfl

theorem takeBytes?_eq_some_iff {n : Nat} {text a : List Char} :
    takeBytes? n text = some a ↔ ∃ rest, text = a ++ rest ∧ byteLength a = n := by
  rw [takeBytes?, takeBytesOnto?_eq]
  simp only [Option.map_eq_some_iff, dropBytes?_eq_some_iff]
  constructor
  · rintro ⟨rest, ⟨b, rfl, hb⟩, rfl⟩
    exact ⟨rest, by simp, by simpa using hb⟩
  · rintro ⟨rest, rfl, ha⟩
    exact ⟨rest, ⟨a, rfl, ha⟩, by simp⟩

/-- A slice lies between two parts of the text, the first of which ends where it starts. -/
theorem slice?_eq_some_iff {start stop : Nat} {text m : List Char} :
    slice? start stop text = some m ↔
      ∃ a b, text = a ++ m ++ b ∧ byteLength a = start ∧ start + byteLength m = stop := by
  unfold slice?
  split
  · simp only [Option.bind_eq_some_iff, dropBytes?_eq_some_iff, takeBytes?_eq_some_iff]
    constructor
    · rintro ⟨_, ⟨a, rfl, ha⟩, b, rfl, hm⟩
      exact ⟨a, b, by simp, ha, by omega⟩
    · rintro ⟨a, b, rfl, ha, hm⟩
      exact ⟨m ++ b, ⟨a, by simp, ha⟩, b, rfl, by omega⟩
  · simp only [reduceCtorEq, false_iff, not_exists, not_and]
    intro a b _ _
    omega

end Text

/-- A place in a text: its offset, and the text from there on. -/
structure Place where
  offset : Nat
  rest : List Char
  deriving DecidableEq

namespace Place

def at? (text : List Char) (offset : Nat) : Option Place :=
  (Text.dropBytes? offset text).map (⟨offset, ·⟩)

/-- The place at an offset of the text, sought from a place of it that may lie before. -/
def seek? (text : List Char) (p : Place) (offset : Nat) : Option Place :=
  if p.offset ≤ offset then (Text.dropBytes? (offset - p.offset) p.rest).map (⟨offset, ·⟩)
  else at? text offset

/-- The text from a place to an offset, if that cuts the text and does not lie before the place. -/
def upTo? (p : Place) (stop : Nat) : Option (List Char) :=
  if p.offset ≤ stop then Text.takeBytes? (stop - p.offset) p.rest else none

def skip (p : Place) (n : Nat) : Place :=
  ⟨p.offset + Text.byteLength (p.rest.take n), p.rest.drop n⟩

@[simp] theorem rest_skip (p : Place) (n : Nat) : (p.skip n).rest = p.rest.drop n := rfl

theorem skip_zero (p : Place) : p.skip 0 = p := by simp [skip]

theorem skip_skip (p : Place) (m n : Nat) : (p.skip m).skip n = p.skip (m + n) := by
  rw [skip, skip, skip, List.drop_drop, List.take_add, Text.byteLength_append, Nat.add_assoc]

theorem skip_of_rest {p : Place} {taken rest : List Char} (h : p.rest = taken ++ rest) :
    p.skip taken.length = ⟨p.offset + Text.byteLength taken, rest⟩ := by
  rw [skip, h, List.take_left, List.drop_left]

theorem at?_eq_some_iff {text : List Char} {offset : Nat} {p : Place} :
    at? text offset = some p ↔
      p.offset = offset ∧ ∃ a, text = a ++ p.rest ∧ Text.byteLength a = offset := by
  simp only [at?, Option.map_eq_some_iff, Text.dropBytes?_eq_some_iff]
  constructor
  · rintro ⟨rest, h, rfl⟩
    exact ⟨rfl, h⟩
  · rintro ⟨rfl, h⟩
    exact ⟨p.rest, h, rfl⟩

/-- Where the search starts makes no difference. -/
theorem seek?_eq_at? {text : List Char} {p : Place} (h : at? text p.offset = some p)
    (offset : Nat) : p.seek? text offset = at? text offset := by
  obtain ⟨-, a, rfl, ha⟩ := at?_eq_some_iff.1 h
  unfold seek?
  split
  · rename_i hle
    have hsum : offset = Text.byteLength a + (offset - p.offset) := by omega
    rw [at?, hsum, Text.dropBytes?_append, ← hsum]
  · rfl

theorem at?_bind_upTo? (text : List Char) (start stop : Nat) :
    ((at? text start).bind fun p => p.upTo? stop) = Text.slice? start stop text := by
  unfold at? Text.slice?
  cases Text.dropBytes? start text with
  | none => simp
  | some rest => rfl

theorem at?_skip {text : List Char} {offset : Nat} {p : Place} (h : at? text offset = some p)
    (n : Nat) : at? text (p.skip n).offset = some (p.skip n) := by
  obtain ⟨rfl, a, rfl, ha⟩ := at?_eq_some_iff.1 h
  refine at?_eq_some_iff.2 ⟨rfl, a ++ p.rest.take n, by simp, ?_⟩
  simp [skip, ha]

/-- What is passed from a place of the text on is a slice of it. -/
theorem slice?_skip {text : List Char} {p : Place} (h : at? text p.offset = some p) (n : Nat) :
    Text.slice? p.offset (p.skip n).offset text = some (p.rest.take n) := by
  obtain ⟨-, a, ha, hoffset⟩ := at?_eq_some_iff.1 h
  refine Text.slice?_eq_some_iff.2 ⟨a, p.rest.drop n, ?_, hoffset, rfl⟩
  rw [List.append_assoc, List.take_append_drop, ha]

end Place

end Offside
