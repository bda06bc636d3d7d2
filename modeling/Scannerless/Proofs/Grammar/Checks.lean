import Scannerless.Proofs.Digraph.Cycles
import Scannerless.Proofs.Grammar.Lowering

/-!
# Checks at the end of a draft

Once all statements are read and there is a start symbol, three checks are left: that no
lexical symbol uses itself, that no token is empty, and that no symbol consists of itself.
What each of them finds is the outcome for the statements if those before it find nothing.

## Main definitions

- `Prepared` — statements that come as far as these checks.
- `Draft.structuralTable`, `Draft.lexicalTable` — the tables of rules that are checked.

## Main statements

- `Prepared.ofStatements_eq` — what is left to do for such statements.
- `Draft.requireAcyclic_eq_error_iff`, `Draft.exists_requireAcyclic_error_iff` — a check for
  cycles fails with a cycle, and exactly if there is one.
-/

namespace Scannerless

theorem eq_ok_of_isOk {ε : Type} {x : Except ε Unit} (h : x.isOk = true) : x = .ok () := by
  cases x with
  | error e => cases h
  | ok u => rfl

/-- What a failed step fails with. -/
def errorOf? {ε α : Type} : Except ε α → Option ε
  | .error e => some e
  | .ok _ => none

theorem eq_error_of_errorOf? {ε α : Type} {x : Except ε α} {e : ε} (h : errorOf? x = some e) :
    x = .error e := by
  cases x with
  | error e' => rw [Option.some.inj h]
  | ok a => cases h

namespace Draft

variable {d : Draft} {edges : Nat → List SymbolId} {cause : List String → Cause} {fault : Fault}

def structuralTable (d : Draft) : RuleTable :=
  .ofRules d.structural d.symbols.size

def lexicalTable (d : Draft) : RuleTable :=
  .ofRules d.lexical d.symbols.size

/-- The grammar of a draft, if it is not refused. -/
def grammar (d : Draft) (o : Outline) (start : SymbolId) (description : String) : Grammar where
  symbols := d.symbols
  structural := d.structuralTable
  lexical := d.lexicalTable
  start := start
  discards := d.discards
  longestMatch := o.longestMatch.getD false
  defaultAction := o.defaultAction
  description := description

/-- A check for cycles fails with a cycle that the search finds. -/
theorem requireAcyclic_eq_error_iff :
    d.requireAcyclic edges cause = .error fault ↔
      ∃ cycle, Digraph.findCycle edges d.symbols.size = some cycle ∧
        fault = ⟨cause (cycle.map d.name), d.offset (cycle.headD 0)⟩ := by
  rw [requireAcyclic]
  cases Digraph.findCycle edges d.symbols.size with
  | none => simp
  | some cycle => simp [eq_comm]

theorem requireAcyclic_eq_ok_iff :
    d.requireAcyclic edges cause = .ok () ↔ Digraph.findCycle edges d.symbols.size = none := by
  refine ⟨findCycle_of_requireAcyclic, fun h => ?_⟩
  rw [requireAcyclic, h]

/-- A check for cycles fails exactly if a symbol reaches itself. -/
theorem exists_requireAcyclic_error_iff (hedges : ∀ s, d.symbols.size ≤ s → edges s = []) :
    (∃ fault, d.requireAcyclic edges cause = .error fault) ↔
      ∃ s, Relation.TransGen (fun a b => b ∈ edges a) s s := by
  have hnone := (Digraph.findCycle_eq_none_iff hedges).not
  rw [not_forall_not, ← Ne, Option.ne_none_iff_exists'] at hnone
  rw [← hnone]
  simp only [requireAcyclic_eq_error_iff]
  constructor
  · rintro ⟨fault, cycle, hcycle, -⟩
    exact ⟨cycle, hcycle⟩
  · rintro ⟨cycle, hcycle⟩
    exact ⟨_, cycle, hcycle, rfl⟩

end Draft

/-- Statements that come as far as the last checks: they have an outline and a draft, no token
    is discarded, and there is a start symbol. -/
structure Prepared (ss : List Statement) (o : Outline) (d : Draft) (start : SymbolId) : Prop where
  outline : Outline.ofStatements ss = .ok o
  draft : (Drafting.statements o ss).run (.ofOutline o) = .ok ((), d)
  disjoint : d.requireDisjoint = .ok ()
  start : Draft.startSymbol o = .ok start

/-- The outline, the draft and the start symbol of statements that come as far as the last
    checks. -/
def prepare (ss : List Statement) : Except Fault (Outline × Draft × SymbolId) := do
  let o ← Outline.ofStatements ss
  let (_, d) ← (Drafting.statements o ss).run (.ofOutline o)
  d.requireDisjoint
  let start ← Draft.startSymbol o
  return (o, d, start)

namespace Prepared

variable {ss : List Statement} {o : Outline} {d : Draft} {start : SymbolId}

theorem of_prepare (h : prepare ss = .ok (o, d, start)) : Prepared ss o d start := by
  obtain ⟨o', ho, h⟩ := bind_eq_ok_iff.mp h
  obtain ⟨⟨⟨⟩, d'⟩, hd, h⟩ := bind_eq_ok_iff.mp h
  obtain ⟨⟨⟩, hdisjoint, h⟩ := bind_eq_ok_iff.mp h
  obtain ⟨start', hstart, h⟩ := bind_eq_ok_iff.mp h
  cases h
  exact ⟨ho, hd, hdisjoint, hstart⟩

theorem drafted (h : Prepared ss o d start) (description : String) :
    Drafted ss (d.grammar o start description) o d :=
  ⟨h.outline, h.draft, rfl, rfl, rfl, rfl⟩

/-- What is left to do for the statements. -/
theorem ofStatements_eq (h : Prepared ss o d start) (description : String) :
    Grammar.ofStatements ss description = do
      d.requireAcyclic d.referencesOf .lexicalCycle
      d.requireNonempty d.lexicalTable
      d.requireAcyclic (Draft.aloneFrom d.structuralTable) .ruleCycle
      return d.grammar o start description := by
  rw [Grammar.ofStatements, h.outline]
  change ((Drafting.statements o ss).run (.ofOutline o) >>= fun (_, d) =>
    d.finish o description) = _
  rw [h.draft]
  change d.finish o description = _
  rw [Draft.finish, h.disjoint, h.start]
  rfl

end Prepared

namespace Definition

/-- A definition is refused for the fault of its statements. -/
theorem compile_eq_error_iff {c : Definition} {e : CompileError} :
    c.compile = .error e ↔ ∃ fault, Grammar.ofStatements c.statements c.description = .error fault ∧
      e = .ofFault c.description fault := by
  rw [compile]
  cases Grammar.ofStatements c.statements c.description with
  | ok g => simp [Except.mapError]
  | error fault => simp [Except.mapError, eq_comm]

end Definition

end Scannerless
