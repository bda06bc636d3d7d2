import Scannerless.Text.Bytes
import Scannerless.Text.Cluster

/-!
# Typed lines

A backspace in a line that was typed takes back the cluster in front of it.

Each cluster is remembered by its length in bytes, in a word of eight bits. Of
a cluster that is longer, a backspace takes back the remainder of its length
only, and it fails where this would cut a character in two.

## Main definitions

- `TypedLine` — a line while it is typed.
- `takeBack?` — a line as it stands after its backspaces.
-/

namespace Scannerless.Text

/-- A line while it is typed: its characters and the lengths of its clusters
    in bytes, the last ones first. -/
structure TypedLine where
  characters : List Char
  lengths : List UInt8
  deriving DecidableEq, Repr

namespace TypedLine

def empty : TypedLine :=
  ⟨[], []⟩

def append (l : TypedLine) (cluster : List Char) : TypedLine :=
  ⟨cluster.reverse ++ l.characters, (byteLength cluster).toUInt8 :: l.lengths⟩

/-- A line without what its last cluster is remembered by. -/
def erase? (l : TypedLine) : Option TypedLine :=
  match l.lengths with
  | [] => some l
  | length :: lengths => (dropBytes? length.toNat l.characters).map (⟨·, lengths⟩)

/-- A line after a cluster is typed. -/
def type? (l : TypedLine) (cluster : List Char) : Option TypedLine :=
  if cluster == ['\x08'] then l.erase? else some (l.append cluster)

/-- A short cluster is taken back as a whole. -/
theorem erase?_append (l : TypedLine) {cluster : List Char} (h : byteLength cluster < 256) :
    (l.append cluster).erase? = some l := by
  have word : (byteLength cluster).toUInt8.toNat = byteLength cluster.reverse := by
    rw [byteLength_reverse]
    simpa using h
  simp only [append, erase?]
  rw [word, dropBytes?_byteLength_append]
  rfl

end TypedLine

/-- A line as it stands after its backspaces. -/
def takeBack? (line : List Char) : Option (List Char) :=
  ((clusters line).foldlM TypedLine.type? TypedLine.empty).map (·.characters.reverse)

end Scannerless.Text
