import Scannerless.Main
import Scannerless.Reachable
import Scannerless.Proofs.Chart.Additions
import Scannerless.Proofs.Chart.Origins
import Scannerless.Proofs.Chart.Closure
import Scannerless.Proofs.Chart.Stages
import Scannerless.Proofs.Lexer.Matching
import Scannerless.Proofs.Lexer.Skipping
import Scannerless.Proofs.Outcomes
import Scannerless.Proofs.Recognition.Run
import Scannerless.Proofs.Grammar.Coherence
import Scannerless.Proofs.Digraph
import Scannerless.Proofs.Grammar.Drafting
import Scannerless.Proofs.Grammar.Nullable
import Scannerless.Proofs.Grammar.Statements
import Scannerless.Proofs.Recognition.Log
import Scannerless.Proofs.Grammar.Compiled
import Scannerless.Proofs.Recognition.Exactness
import Scannerless.Proofs.Recognition.Forest
import Scannerless.Proofs.Loop
import Scannerless.Proofs.Recognition.Choice
import Scannerless.Proofs.Evaluation.Recursion
import Scannerless.Proofs.Evaluation.Simulation
import Scannerless.Proofs.Evaluation.Runs
import Scannerless.Proofs.Recognition.Policy
import Scannerless.Proofs.Text.Escape
import Scannerless.Proofs.Grammar.Lexemes
import Scannerless.Proofs.Evaluation.Arguments
import Scannerless.Proofs.Grammar.Sequences
import Scannerless.Proofs.Grammar.SequenceExactness
import Scannerless.Proofs.Grammar.TierExactness
import Scannerless.Proofs.Evaluation.Meanings
import Scannerless.Proofs.Grammar.Offsets
import Scannerless.Proofs.GrammarText.Layout
import Scannerless.Proofs.GrammarText.Notions
import Scannerless.Proofs.GrammarText.Agreement
import Scannerless.Proofs.Lexer.History
import Scannerless.Proofs.Chart.Inclusion
import Scannerless.Proofs.Evaluation.Descent
import Scannerless.Proofs.Grammar.Supply
import Scannerless.Proofs.Grammar.WellFormed
import Scannerless.Proofs.Recognition.Restriction
import Scannerless.Proofs.Recognition.Limit
import Scannerless.Proofs.Recognition.Failure
import Scannerless.Proofs.GrammarText.Totality
import Scannerless.Proofs.Grammar.RuleCycles
import Scannerless.Proofs.Grammar.EmptyLexemes
import Scannerless.Proofs.Recognition.Tracing
import Scannerless.Proofs.Evaluation.Parallel
import Scannerless.Proofs.Calculator.Answers
import Scannerless.Proofs.Evaluation.Contexts
import Scannerless.Proofs.Evaluation.Applications
import Scannerless.Proofs.Evaluation.Nesting
import Scannerless.Proofs.Evaluation.Ranks
import Scannerless.Proofs.Grammar.Repetition
import Scannerless.Proofs.Grammar.Interleaving
import Scannerless.Proofs.Recognition.EndOfInput
import Scannerless.Proofs.GrammarText.Places
import Scannerless.Proofs.Recognition.Skips
import Scannerless.Proofs.Chart.Bounds
import Scannerless.Proofs.Recognition.Termination
import Scannerless.Proofs.Text.ClassForms
import Scannerless.Proofs.Grammar.Sharing
import Scannerless.Proofs.Text.Location
import Scannerless.Proofs.Text.Cursor
import Scannerless.Proofs.Grammar.Literals
import Scannerless.Proofs.Grammar.RhsItems
import Scannerless.Proofs.Chart.Fixpoint
import Scannerless.Proofs.Grammar.LexicalCycles
