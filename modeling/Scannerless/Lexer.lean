import Scannerless.Chart
import Scannerless.Grammar
import Scannerless.Text.Indexed
import Scannerless.Trace

/-!
# Lexers

A lexer finds the lexemes that begin at a place of an input, among those that
are asked for, and skips what may be discarded. It reads characters with a
chart over the lexical rules. It remembers what it was asked, so that an
answer is given, and reported, once.

## Main definitions

- `Grammar.matchesAt` — the lexemes among some targets that begin a text.
- `Lexer.skip` — the end of what is discarded from a place on.
- `Lexer.lexemes` — the tokens that begin at a place.

## Main statements

- `Lexer.answer?_remember` — what is remembered answers its question and no
  other one.
-/

namespace Scannerless

open Text

namespace Grammar

/-- Moves the items of set `k` of a chart over the character `c` into the set
    after it. -/
def readChar (g : Grammar) (k : Nat) (c : Char) (chart : Chart g.lexical) :
    Chart g.lexical :=
  let moving := (chart.expected k).filter fun s => (g.charClass? s).any (·.contains c)
  moving.foldl (fun chart s => chart.scan k s k (k + 1)) chart.grow

/-- The targets that set `k` of a closed chart completes from its first set
    on. -/
def endingAt (g : Grammar) (targets : List SymbolId) (k : Nat) (chart : Chart g.lexical) :
    List SymbolId :=
  let ending := chart.completedSymbols k 0
  targets.filter (ending.contains ·)

/-- Reads a text on from set `k`, which is `length` bytes after the start, and
    lists the targets with the lengths of their matches. -/
def matchesFrom (g : Grammar) (targets : List SymbolId) (k length : Nat)
    (chart : Chart g.lexical) : List Char → List (SymbolId × Nat)
  | [] => (g.endingAt targets k (chart.close k)).map (·, length)
  | c :: cs =>
    let closed := chart.close k
    let found := (g.endingAt targets k closed).map (·, length)
    let next := g.readChar k c closed
    if (next.setAt (k + 1)).isEmpty then found
    else found ++ matchesFrom g targets (k + 1) (length + c.utf8Size) next cs

/-- The targets that begin a text, with the lengths of their matches in bytes,
    shorter ones first and otherwise in the order of the targets. A match is
    not empty. -/
def matchesAt (g : Grammar) (targets : List SymbolId) (cs : List Char) :
    List (SymbolId × Nat) :=
  let chart := targets.foldl (fun c s => c.predict 0 s) (Chart.ofSize 1)
  (g.matchesFrom targets 0 0 chart cs).filter (0 < ·.2)

end Grammar

/-- A match of a symbol with its span in bytes. -/
structure LexemeEvent where
  kind : TerminalKind
  symbol : SymbolId
  start : Nat
  stop : Nat
  deriving DecidableEq, Repr

def LexemeEvent.terminal (g : Grammar) (input : Indexed) (e : LexemeEvent) : TerminalEvent :=
  ⟨e.kind, g.name e.symbol, e.start, e.stop, input.between e.start e.stop⟩

/-- Skips the longest match of a discarded symbol at the offset `pos` of an
    input and goes on from there, `steps` times at most. Of several longest
    matches the symbol declared last counts. -/
def Grammar.skipFrom (g : Grammar) (input : Indexed) :
    (steps pos : Nat) → Nat × List LexemeEvent
  | 0, pos => (pos, [])
  | steps + 1, pos =>
    match (g.matchesAt g.discards (input.suffixAt pos)).getLast? with
    | none => (pos, [])
    | some (s, length) =>
      let (stop, events) := g.skipFrom input steps (pos + length)
      (stop, ⟨.discarded, s, pos, pos + length⟩ :: events)

/-- The symbols of a list by number, each once. -/
def ascending (ss : List SymbolId) : List SymbolId :=
  (Std.TreeSet.ofList ss compare).toList

theorem mem_ascending {s : SymbolId} {ss : List SymbolId} : s ∈ ascending ss ↔ s ∈ ss := by
  simp [ascending]

/-- The symbols come by number, each once. -/
theorem sorted_ascending (ss : List SymbolId) : (ascending ss).Pairwise (· < ·) := by
  simpa [ascending, Nat.compare_eq_lt] using (Std.TreeSet.ofList ss compare).ordered_toList

/-- What a lexer was asked, with its answers by offset, and what it
    reported. -/
structure Lexer where
  skips : Std.TreeMap Nat Nat
  answers : Std.TreeMap Nat (List (List SymbolId × List (SymbolId × Nat)))
  events : Array LexemeEvent

namespace Lexer

def initial : Lexer :=
  ⟨∅, ∅, #[]⟩

/-- The end of what is discarded from an offset on. Each match takes a byte at
    least. -/
def skip (g : Grammar) (input : Indexed) (offset : Nat) (l : Lexer) : Nat × Lexer :=
  match l.skips[offset]? with
  | some stop => (stop, l)
  | none =>
    let (stop, events) := g.skipFrom input (input.size - offset) offset
    (stop, { l with skips := l.skips.insert offset stop, events := l.events ++ events })

/-- Splits matches into those that count and those that do not: with longest
    matching the longest ones count, and otherwise all. -/
def split (g : Grammar) (found : List (SymbolId × Nat)) :
    List (SymbolId × Nat) × List (SymbolId × Nat) :=
  if g.longestMatch then
    let longest := (found.map (·.2)).foldl max 0
    found.partition (·.2 == longest)
  else (found, [])

/-- The answer given before to the question for some targets at an offset. -/
def answer? (offset : Nat) (targets : List SymbolId) (l : Lexer) :
    Option (List (SymbolId × Nat)) :=
  (l.answers.getD offset []).lookup targets

/-- The lexer that remembers an answer and reports some events. -/
def remember (offset : Nat) (targets : List SymbolId) (accepted : List (SymbolId × Nat))
    (events : List LexemeEvent) (l : Lexer) : Lexer :=
  { l with
    answers := l.answers.insert offset ((targets, accepted) :: l.answers.getD offset [])
    events := l.events ++ events }

/-- What is remembered is the answer to its question and to no other one. -/
theorem answer?_remember (offset : Nat) (targets : List SymbolId)
    (accepted : List (SymbolId × Nat)) (events : List LexemeEvent) (l : Lexer) (other : Nat)
    (ts : List SymbolId) :
    (l.remember offset targets accepted events).answer? other ts =
      if other = offset ∧ ts = targets then some accepted else l.answer? other ts := by
  rw [answer?, remember, Std.TreeMap.getD_insert]
  by_cases place : offset = other
  · subst place
    simp only [Std.ReflCmp.compare_self, if_true, List.lookup_cons, true_and]
    by_cases same : ts = targets
    · simp [same]
    · have differs : (ts == targets) = false := by simpa using same
      rw [differs, if_neg same]
      rfl
  · rw [if_neg (by simpa using place), if_neg fun both => place both.1.symm]
    rfl

/-- The tokens among the expected symbols that begin at an offset, with their
    ends. -/
def lexemes (g : Grammar) (input : Indexed) (offset : Nat) (expected : List SymbolId)
    (l : Lexer) : List (SymbolId × Nat) × Lexer :=
  let targets := ascending expected
  match l.answer? offset targets with
  | some found => (found, l)
  | none =>
    let all := (g.matchesAt targets (input.suffixAt offset)).map fun (s, length) =>
      (s, offset + length)
    let (accepted, rejected) := split g all
    let event (kind : TerminalKind) (found : SymbolId × Nat) : LexemeEvent :=
      ⟨kind, found.1, offset, found.2⟩
    (accepted,
      l.remember offset targets accepted
        (rejected.map (event .rejected) ++ accepted.map (event .accepted)))

end Lexer

end Scannerless
