import Std.Data.TreeMap

/-!
# Rosters

A roster lists different elements in the order they were entered. An index
tells in a few steps whether an element is there, and where; what it tells is
what a search through the list would find.

## Main definitions

- `Roster` — the elements with their index.
- `Roster.insert` — enters an element unless it is there.
- `Roster.ofList` — the elements of a list, each where it is first met.
- `Roster.index?` — where an element is.
- `Roster.toList` — the view: the elements in order.

## Main statements

- `Roster.toList_insert` — an element that is there is not entered again, and a
  new one comes last.
- `Roster.mem_toList_ofList` — the elements of a list are entered, and no other
  ones.
- `Roster.index?_eq_none_iff` — an element has no index exactly if it is not
  there.
-/

namespace Scannerless

/-- Different elements in the order they were entered, with the index of each
    by an order in which only an element itself equals it. -/
structure Roster (α : Type) [DecidableEq α] (order : α → α → Ordering) where
  elements : Array α
  positions : Std.TreeMap α Nat order
  positions_eq : ∀ x, positions[x]? = elements.toList.findIdx? (· == x)
  nodup : elements.toList.Nodup

namespace Roster

variable {α : Type} [DecidableEq α] {order : α → α → Ordering}

def empty : Roster α order where
  elements := #[]
  positions := ∅
  positions_eq _ := rfl
  nodup := List.nodup_nil

/-- The elements in the order they were entered. -/
def toList (r : Roster α order) : List α :=
  r.elements.toList

def size (r : Roster α order) : Nat :=
  r.elements.size

/-- Where an element is. -/
def index? (r : Roster α order) (x : α) : Option Nat :=
  r.positions[x]?

@[simp]
theorem toList_empty : (empty : Roster α order).toList = [] :=
  rfl

/-- There are as many elements as the size says. -/
@[simp]
theorem length_toList (r : Roster α order) : r.toList.length = r.size :=
  Array.length_toList

theorem nodup_toList (r : Roster α order) : r.toList.Nodup :=
  r.nodup

/-- An element has no index exactly if it is not there. -/
theorem index?_eq_none_iff (r : Roster α order) (x : α) :
    r.index? x = none ↔ x ∉ r.toList := by
  rw [index?, r.positions_eq, List.findIdx?_eq_none_iff]
  constructor
  · intro none member
    simpa using none x member
  · intro absent y member
    rw [beq_eq_false_iff_ne]
    intro same
    exact absent (same ▸ member)

variable [Std.TransCmp order] [Std.LawfulEqCmp order]

/-- Enters an element that is not there. -/
def push (r : Roster α order) (x : α) (new : r.index? x = none) : Roster α order :=
  let size := r.elements.size
  { elements := r.elements.push x
    positions := r.positions.insert x size
    positions_eq := by
      intro y
      rw [Array.toList_push, Std.TreeMap.getElem?_insert, List.findIdx?_append, ← r.positions_eq]
      by_cases same : x = y
      · subst same
        rw [if_pos Std.ReflCmp.compare_self]
        rw [index?] at new
        simp [new, size]
      · rw [if_neg fun equal => same (Std.LawfulEqCmp.eq_of_compare equal)]
        simp [same]
    nodup := by
      rw [Array.toList_push, List.nodup_append]
      refine ⟨r.nodup, by simp, ?_⟩
      intro y member z last same
      rw [List.mem_singleton] at last
      subst last
      subst same
      exact (r.index?_eq_none_iff y).mp new member }

def insert (r : Roster α order) (x : α) : Roster α order :=
  match found : r.index? x with
  | some _ => r
  | none => r.push x found

/-- An element that is not there comes last. -/
@[simp]
theorem toList_push (r : Roster α order) (x : α) (new : r.index? x = none) :
    (r.push x new).toList = r.toList ++ [x] :=
  Array.toList_push

/-- An element that is there is not entered again, and a new one comes last. -/
theorem toList_insert (r : Roster α order) (x : α) :
    (r.insert x).toList = if x ∈ r.toList then r.toList else r.toList ++ [x] := by
  have known := r.index?_eq_none_iff x
  rw [insert]
  split
  next there => rw [if_pos (by simpa [there] using known)]
  next new => rw [if_neg (known.mp new), toList_push]

/-- A roster after an insertion holds the element and what it held before. -/
theorem mem_toList_insert (r : Roster α order) (x y : α) :
    y ∈ (r.insert x).toList ↔ y ∈ r.toList ∨ y = x := by
  rw [toList_insert]
  split
  · next there =>
    constructor
    · exact Or.inl
    · rintro (old | rfl)
      · exact old
      · exact there
  · simp

/-- The elements of a list, each where it is first met. -/
def ofList (order : α → α → Ordering) [Std.TransCmp order] [Std.LawfulEqCmp order]
    (xs : List α) : Roster α order :=
  xs.foldl insert empty

/-- Entering the elements of a list adds them to what was held before. -/
theorem mem_toList_foldl_insert (r : Roster α order) (xs : List α) (y : α) :
    y ∈ (xs.foldl insert r).toList ↔ y ∈ r.toList ∨ y ∈ xs := by
  induction xs generalizing r with
  | nil => simp
  | cons x xs ih => rw [List.foldl_cons, ih, mem_toList_insert, List.mem_cons, or_assoc]

/-- The elements of a list are entered, and no other ones. -/
@[simp]
theorem mem_toList_ofList (xs : List α) (y : α) : y ∈ (ofList order xs).toList ↔ y ∈ xs := by
  simp [ofList, mem_toList_foldl_insert]

end Roster

end Scannerless
