import Scannerless.Text.Cluster.Role

/-!
# Grapheme clusters

What a reader takes for one character may be several: a letter with its
accents, the two halves of a flag, a sequence of joined pictographs. A text is
divided into such clusters by the rules for extended grapheme clusters. Whether
two neighbours belong together follows from their roles, and in three cases
from what stands in front of them.

## Main definitions

- `ClusterContext` — what the division depends on.
- `clusters` — the clusters of a text.

## Main statements

- `flatten_clusters` — the clusters are the text.
- `ne_nil_of_mem_clusters` — no cluster is empty.
-/

namespace Scannerless.Text

/-- How far a text has come toward two joined pictographs. -/
inductive EmojiStage where
  | none
  /-- A pictograph, with what extends it. -/
  | begun
  /-- A joiner as well. -/
  | joined
  deriving DecidableEq, Repr

/-- How far a text has come toward a conjunct of two consonants. -/
inductive ConjunctStage where
  | none
  /-- A consonant, with what extends it. -/
  | begun
  /-- A linker as well. -/
  | linked
  deriving DecidableEq, Repr

def EmojiStage.next : EmojiStage → ClusterRole → EmojiStage
  | _, .pictograph => .begun
  | .begun, .extending => .begun
  | .begun, .joiner => .joined
  | _, _ => .none

def ConjunctStage.next (s : ConjunctStage) (c : Char) (role : ClusterRole) : ConjunctStage :=
  if role == .consonant then .begun
  else if s == .none then .none
  else if isLinker c then .linked
  else if (role == .extending || role == .joiner) && c != zeroWidthNonJoiner then s
  else .none

/-- What the division of a text depends on after some of its characters: the
    role of the last one, whether it is the first half of a flag, and how far
    they have come toward joined pictographs and a conjunct. -/
structure ClusterContext where
  role : ClusterRole
  halfFlag : Bool
  emoji : EmojiStage
  conjunct : ConjunctStage
  deriving DecidableEq, Repr

namespace ClusterContext

def initial : ClusterContext :=
  ⟨.control, false, .none, .none⟩

def next (x : ClusterContext) (c : Char) : ClusterContext :=
  let role := ClusterRole.ofChar c
  { role := role
    halfFlag := role == .regional && !x.halfFlag
    emoji := x.emoji.next role
    conjunct := x.conjunct.next c role }

/-- Whether a character of the given role belongs to the cluster of the last
    one. -/
def joins (x : ClusterContext) (role : ClusterRole) : Bool :=
  match x.role, role with
  | .carriageReturn, .lineFeed => true
  | .carriageReturn, _ | .lineFeed, _ | .control, _ => false
  | _, .carriageReturn | _, .lineFeed | _, .control => false
  | .syllableInitial, .syllableInitial | .syllableInitial, .syllableVowel => true
  | .syllableInitial, .syllableOpen | .syllableInitial, .syllableClosed => true
  | .syllableOpen, .syllableVowel | .syllableOpen, .syllableFinal => true
  | .syllableVowel, .syllableVowel | .syllableVowel, .syllableFinal => true
  | .syllableClosed, .syllableFinal | .syllableFinal, .syllableFinal => true
  | _, .extending | _, .joiner | _, .spacing => true
  | .leading, _ => true
  | _, .consonant => x.conjunct == .linked
  | _, .pictograph => x.emoji == .joined
  | .regional, .regional => x.halfFlag
  | _, _ => false

end ClusterContext

/-- Divides the rest of a text, `cluster` being the characters of the current
    cluster in reverse and `x` the context after them. -/
def clustersFrom (cluster : List Char) (x : ClusterContext) : List Char → List (List Char)
  | [] => [cluster.reverse]
  | c :: cs =>
    if x.joins (ClusterRole.ofChar c) then clustersFrom (c :: cluster) (x.next c) cs
    else cluster.reverse :: clustersFrom [c] (x.next c) cs

def clusters : List Char → List (List Char)
  | [] => []
  | c :: cs => clustersFrom [c] (ClusterContext.initial.next c) cs

/-- The rest of a text is divided without a loss. -/
theorem flatten_clustersFrom (cluster : List Char) (x : ClusterContext) (cs : List Char) :
    (clustersFrom cluster x cs).flatten = cluster.reverse ++ cs := by
  induction cs generalizing cluster x with
  | nil => simp [clustersFrom]
  | cons c cs ih =>
    rw [clustersFrom]
    split <;> simp [ih]

/-- A text is divided without a loss. -/
theorem flatten_clusters (cs : List Char) : (clusters cs).flatten = cs := by
  cases cs with
  | nil => rfl
  | cons c cs => simp [clusters, flatten_clustersFrom]

/-- The rest of a text has no empty cluster if the current one is not empty. -/
theorem ne_nil_of_mem_clustersFrom {cluster : List Char} {x : ClusterContext}
    {cs part : List Char} (h : cluster ≠ []) (found : part ∈ clustersFrom cluster x cs) :
    part ≠ [] := by
  induction cs generalizing cluster x with
  | nil =>
    rw [clustersFrom, List.mem_singleton] at found
    simpa [found] using h
  | cons c cs ih =>
    rw [clustersFrom] at found
    split at found
    · exact ih (List.cons_ne_nil c cluster) found
    · rcases List.mem_cons.mp found with rfl | later
      · simpa using h
      · exact ih (List.cons_ne_nil c []) later

theorem ne_nil_of_mem_clusters {cs part : List Char} (found : part ∈ clusters cs) :
    part ≠ [] := by
  cases cs with
  | nil => simp [clusters] at found
  | cons c cs => exact ne_nil_of_mem_clustersFrom (List.cons_ne_nil c []) found

end Scannerless.Text
