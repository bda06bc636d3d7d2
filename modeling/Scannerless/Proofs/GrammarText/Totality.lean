import Scannerless.Proofs.GrammarText.Agreement
import Scannerless.Proofs.GrammarText.StrictActions
import Scannerless.Proofs.Lookups.Grammars

/-!
# Every text has a grammar or an error

Compiling a text is written here once more, with actions that miss what they take if it is not
there, and with lookups that miss what they look for. Whatever the text is, nothing is missed:
there is a grammar or an error, the same as without the misses.

## Main definitions

- `GrammarText.Understood` — an evaluation comes to statements, and no action misses a phrase.
- `GrammarText.Checked.compile` — the grammar of a text, or a miss.

## Main statements

- `GrammarText.Conforms.exists_understood` — what is recognized is understood.
- `compileText_total` — compiling a text misses nothing.
-/

namespace Scannerless

open Text

namespace GrammarText

/-- A recognized text comes to statements, also with strict actions. Whatever an action makes on
    the way is there and has a meaning. -/
def Understood (r : Recognition) (ss : List Statement) : Prop :=
  (r.evaluate Phrase.actions).1 = .ok (.statements ss) ∧
    (r.evaluate Phrase.Strict.actions).1 = .ok (some (.statements ss)) ∧
    ∀ e ∈ (r.evaluate Phrase.Strict.actions).2, ∃ p : Phrase, e.value = some p ∧ p.Meaningful

namespace Checked

/-- The statements of a recognized text. An action may miss a phrase, and what comes out has to
    be statements. -/
def read (r : Recognition) : Option (Except Fault (List Statement)) :=
  match r.failure? with
  | some error => some (.error (fault r.input.chars error))
  | none =>
    match (r.evaluate Phrase.Strict.actions).1 with
    | .ok (some (.statements ss)) => some (.ok ss)
    | .ok _ => none
    | .error error => some (.error (fault r.input.chars error))

/-- The grammar of a text, or what is wrong with the text, unless something is missed. -/
def compile (metagrammar : Grammar) (text : List Char) (description : String) :
    Option (Except CompileError Grammar) :=
  match recognizeChars metagrammar none text with
  | .error overrun => some (.error (.inText text description (fault text overrun.error)))
  | .ok r => do
    match ← read r with
    | .error fault => return .error (.inText text description fault)
    | .ok ss =>
      let result ← (Scannerless.Checked.ofStatements ss description).run
      return result.mapError (.inText text description)

end Checked

variable {g : Grammar}

/-- A text that is recognized comes to statements. -/
theorem Conforms.exists_understood {r : Recognition} (h : Conforms r.grammar) (hr : r.Ended)
    (hok : r.failure? = none) : ∃ ss, Understood r ss := by
  have hone : ∀ ps ws, Means (notion r.grammar r.grammar.start) ps ws →
      ∃ p, ps = [p] ∧ Says (.whole .statements) p ws := by
    intro ps ws hmeans
    rwa [h.start] at hmeans
  obtain ⟨p, ws, hmeans, hvalue, hvalue', hnoted⟩ :=
    (h.explains_lattice hr).evaluate_along (carries_strict r) hr hok fun ps ws hps =>
      (hone ps ws hps).imp fun _ => And.left
  obtain ⟨q, hq, ss, -, rfl, -⟩ := hone [p] ws hmeans
  obtain rfl := List.singleton_inj.mp hq
  refine ⟨ss, hvalue, hvalue', fun e he => ?_⟩
  obtain ⟨p, s, ws, hp, hsays⟩ := hnoted e he
  exact ⟨p, hp, hsays.meaningful⟩

theorem Understood.read_eq {r : Recognition} {ss : List Statement} (h : Understood r ss)
    (hok : r.failure? = none) : read r = .ok ss ∧ Checked.read r = some (.ok ss) := by
  obtain ⟨hvalue, hvalue', -⟩ := h
  constructor
  · rw [read, understand, hok, hvalue]
  · simp only [Checked.read, hok, hvalue']

/-- Reading a text misses nothing. -/
theorem Conforms.read_eq_some {r : Recognition} (h : Conforms r.grammar) (hr : r.Ended) :
    Checked.read r = some (read r) := by
  cases hfailure : r.failure? with
  | some error => simp only [Checked.read, read, understand, hfailure]
  | none =>
    obtain ⟨ss, hss⟩ := h.exists_understood hr hfailure
    obtain ⟨hread, hread'⟩ := hss.read_eq hfailure
    rw [hread, hread']

/-- Compiling a text misses nothing. -/
theorem Conforms.compile_eq (h : Conforms g) (text : List Char) (description : String) :
    Checked.compile g text description = some (compileWith g text description).result := by
  obtain ⟨r, hr, rfl, -, hended⟩ := h.coherent.exists_ended text
  rw [Checked.compile, compileWith, hr]
  simp only [h.read_eq_some hended]
  cases read r with
  | error fault => rfl
  | ok ss =>
    simp only [compileStatements_result]
    show (Scannerless.Checked.ofStatements ss description).run.bind _ = _
    rw [Scannerless.Checked.ofStatements_eq]
    rfl

end GrammarText

/-- Compiling misses nothing, whatever the text is. The grammar of the notation is compiled itself;
    a text is either not recognized, or comes to statements. -/
theorem compileText_total :
    ∃ g, GrammarText.grammar = .ok g ∧
      (Checked.ofStatements GrammarText.statements "SLIF meta grammar").run = some (.ok g) ∧
      ∀ text description,
        GrammarText.Checked.compile g text.toList description =
          some (compileText text description).result ∧
        ∃ r, recognizeChars g none text.toList = .ok r ∧
          (r.failure?.isSome = true ∨ ∃ ss, GrammarText.Understood r ss) := by
  obtain ⟨g, hg, hconforms⟩ := GrammarText.exists_conforms
  refine ⟨g, hg, ?_, fun text description => ⟨?_, ?_⟩⟩
  · rw [Checked.ofStatements_eq, Grammar.ofStatements_of_compile hg]
  · rw [compileText, hg]
    exact hconforms.compile_eq text.toList description
  · obtain ⟨r, hr, rfl, -, hended⟩ := hconforms.coherent.exists_ended text.toList
    refine ⟨r, hr, ?_⟩
    cases hfailure : r.failure? with
    | some error => exact Or.inl rfl
    | none => exact Or.inr (hconforms.exists_understood hended hfailure)

end Scannerless
