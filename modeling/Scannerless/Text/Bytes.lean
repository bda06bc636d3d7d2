/-!
# Byte offsets into text

Places in a text are counted in bytes of its UTF-8 form. A place inside a
character is not a place of the text, and the partial functions here refuse it.

## Main definitions

- `byteLength` is the length of a text in bytes.
- `dropBytes?` and `takeBytes?` cut a text at a byte offset.
- `slice?` is the part of a text between two byte offsets.

## Main statements

- `dropBytes?_eq_some_iff` — the places of a text are the lengths of what
  precedes them.
- `slice?_eq_some_iff` — the parts of a text are what stands between two of its
  places.
-/

namespace Scannerless.Text

def byteLength : List Char → Nat
  | [] => 0
  | c :: cs => c.utf8Size + byteLength cs

/-- A text from a byte offset on, if the offset is the start of a character or
    the end of the text. -/
def dropBytes? : Nat → List Char → Option (List Char)
  | 0, cs => some cs
  | _ + 1, [] => none
  | n + 1, c :: cs => if c.utf8Size ≤ n + 1 then dropBytes? (n + 1 - c.utf8Size) cs else none

/-- A text up to a byte offset, if the offset is the start of a character or
    the end of the text. -/
def takeBytes? : Nat → List Char → Option (List Char)
  | 0, _ => some []
  | _ + 1, [] => none
  | n + 1, c :: cs =>
    if c.utf8Size ≤ n + 1 then (takeBytes? (n + 1 - c.utf8Size) cs).map (c :: ·) else none

/-- The part of a text between two byte offsets, if both are places of the
    text in this order. -/
def slice? (start stop : Nat) (cs : List Char) : Option (List Char) :=
  if start ≤ stop then (dropBytes? start cs).bind (takeBytes? (stop - start)) else none

/-- The characters from a byte offset on, none for an offset that is no place
    of the text. -/
def suffixAt (offset : Nat) (cs : List Char) : List Char :=
  (dropBytes? offset cs).getD []

/-- The text between two byte offsets, empty if they do not delimit one. -/
def between (start stop : Nat) (cs : List Char) : String :=
  String.ofList ((slice? start stop cs).getD [])

@[simp]
theorem byteLength_append (a b : List Char) :
    byteLength (a ++ b) = byteLength a + byteLength b := by
  induction a with
  | nil => simp [byteLength]
  | cons c a ih => simp [byteLength, ih, Nat.add_assoc]

theorem byteLength_reverse (cs : List Char) : byteLength cs.reverse = byteLength cs := by
  induction cs with
  | nil => rfl
  | cons c cs ih => simp [byteLength, ih, Nat.add_comm]

/-- What follows a text is found behind its length. -/
theorem dropBytes?_byteLength_append (a b : List Char) :
    dropBytes? (byteLength a) (a ++ b) = some b := by
  induction a with
  | nil => simp [byteLength, dropBytes?]
  | cons c a ih =>
    obtain ⟨n, hn⟩ := Nat.exists_eq_add_of_lt c.utf8Size_pos
    have h : byteLength (c :: a) = n + byteLength a + 1 := by simp [byteLength]; omega
    rw [h, List.cons_append, dropBytes?, if_pos (by omega)]
    have : n + byteLength a + 1 - c.utf8Size = byteLength a := by omega
    rw [this, ih]

/-- A text is found up to its length. -/
theorem takeBytes?_byteLength_append (a b : List Char) :
    takeBytes? (byteLength a) (a ++ b) = some a := by
  induction a with
  | nil => simp [byteLength, takeBytes?]
  | cons c a ih =>
    obtain ⟨n, hn⟩ := Nat.exists_eq_add_of_lt c.utf8Size_pos
    have h : byteLength (c :: a) = n + byteLength a + 1 := by simp [byteLength]; omega
    rw [h, List.cons_append, takeBytes?, if_pos (by omega)]
    have : n + byteLength a + 1 - c.utf8Size = byteLength a := by omega
    rw [this, ih, Option.map_some]

/-- The places of a text are the lengths of what precedes them. -/
theorem dropBytes?_eq_some_iff {n : Nat} {cs rest : List Char} :
    dropBytes? n cs = some rest ↔ ∃ before, cs = before ++ rest ∧ byteLength before = n := by
  constructor
  · intro h
    fun_induction dropBytes? n cs with
    | case1 cs => exact ⟨[], by simpa using h, rfl⟩
    | case2 => simp at h
    | case3 n c cs fits ih =>
      obtain ⟨before, rfl, len⟩ := ih h
      exact ⟨c :: before, rfl, by simp [byteLength, len]; omega⟩
    | case4 => simp at h
  · rintro ⟨before, rfl, rfl⟩
    exact dropBytes?_byteLength_append before rest

/-- A text is cut where the length of what precedes is as given. -/
theorem takeBytes?_eq_some_iff {n : Nat} {cs before : List Char} :
    takeBytes? n cs = some before ↔ ∃ rest, cs = before ++ rest ∧ byteLength before = n := by
  constructor
  · intro h
    fun_induction takeBytes? n cs generalizing before with
    | case1 cs => exact ⟨cs, by simp_all, by simp_all [byteLength]⟩
    | case2 => simp at h
    | case3 n c cs fits ih =>
      obtain ⟨taken, found, rfl⟩ := Option.map_eq_some_iff.mp h
      obtain ⟨rest, rfl, len⟩ := ih found
      exact ⟨rest, rfl, by simp [byteLength, len]; omega⟩
    | case4 => simp at h
  · rintro ⟨rest, rfl, rfl⟩
    exact takeBytes?_byteLength_append before rest

/-- The part between two places is what stands there. -/
theorem slice?_append (a b c : List Char) :
    slice? (byteLength a) (byteLength a + byteLength b) (a ++ b ++ c) = some b := by
  simp [slice?, List.append_assoc, dropBytes?_byteLength_append, takeBytes?_byteLength_append]

/-- The parts of a text are what stands between two of its places. -/
theorem slice?_eq_some_iff {start stop : Nat} {cs part : List Char} :
    slice? start stop cs = some part ↔
      ∃ before rest, cs = before ++ (part ++ rest) ∧ byteLength before = start ∧
        stop = start + byteLength part := by
  constructor
  · intro h
    rw [slice?] at h
    split at h
    · obtain ⟨after, cut, taken⟩ := Option.bind_eq_some_iff.mp h
      obtain ⟨before, rfl, rfl⟩ := dropBytes?_eq_some_iff.mp cut
      obtain ⟨rest, rfl, len⟩ := takeBytes?_eq_some_iff.mp taken
      exact ⟨before, rest, rfl, rfl, by omega⟩
    · cases h
  · rintro ⟨before, rest, rfl, rfl, rfl⟩
    rw [← List.append_assoc]
    exact slice?_append before part rest

end Scannerless.Text
