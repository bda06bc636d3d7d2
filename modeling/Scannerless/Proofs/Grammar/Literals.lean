import Scannerless.Proofs.Grammar.Lexemes
import Scannerless.Proofs.Text.Blank
import Scannerless.Proofs.Text.LiteralForms

/-!
# Literals and the lexemes named after them

A literal among lexemes has a lexeme that is named after it: by its text, written with escapes,
between quotes. Such a name is itself the spelling of the literal.

## Main statements

- `Element.decode_spelling_literal` — the name of a literal is read as this literal.
- `literal_exact` — how the bodies of literals are decoded, and what lexemes of literals are
  called.
-/

namespace Scannerless

open Text

/-- The name of a literal is read as this literal. -/
theorem Element.decode_spelling_literal {text : List Char} (h : text ≠ []) :
    decode (Terminal.literal text).spelling = .ok (.terminal (.literal text)) := by
  have hchars := Terminal.toList_spelling_literal text
  have hquote : isBlank '\'' = false := by decide
  have hlast : ('\'' :: (escapeLiteral text ++ ['\''])).getLast? = some '\'' := by
    rw [← List.cons_append, List.getLast?_concat]
  have htrim : trimChars (Terminal.literal text).spelling.toList =
      '\'' :: (escapeLiteral text ++ ['\'']) := by
    rw [hchars]
    refine trimChars_eq_self (by simpa using hquote) ?_
    rw [hlast]
    simpa using hquote
  have hclass : enclosed '[' ']' ('\'' :: (escapeLiteral text ++ ['\''])) = false := by
    simp [enclosed]
  have hliteral : enclosed '\'' '\'' ('\'' :: (escapeLiteral text ++ ['\''])) = true := by
    simp [enclosed, hlast]
  have hinside : inside ('\'' :: (escapeLiteral text ++ ['\''])) = escapeLiteral text :=
    List.dropLast_concat
  simp only [decode, htrim, hclass, hliteral, hinside, Bool.false_eq_true, Bool.true_or, if_true,
    if_false, decodeLiteral, unescape_escapeLiteral]

/-- The name of the lexeme of a literal is read as this literal. -/
theorem Lowered.decode_name {ss : List Statement} {g : Grammar} {o : Outline} {d : Draft}
    (h : Lowered ss g o d) {raw : String} {text : List Char} {s : SymbolId}
    (hraw : Element.decode raw = .ok (.terminal (.literal text))) (hs : d.StandsFor o raw s) :
    g.symbols[s]? = some ⟨(Terminal.literal text).spelling, .lexeme⟩ ∧
      Element.decode (Terminal.literal text).spelling = .ok (.terminal (.literal text)) := by
  have hne : text ≠ [] := by
    rcases Element.decode_eq_terminal hraw with ⟨_, hne, heq⟩ | ⟨_, _, _, heq⟩
    · rwa [Terminal.literal.inj heq]
    · cases heq
  refine ⟨?_, Element.decode_spelling_literal hne⟩
  rw [h.tables.1]
  exact (h.isTerminal hs hraw).1

/-- A body of a literal is decoded exactly if it is made of characters other than the backslash and
    of escapes of characters, and then as what these stand for. Any other one is refused, at the
    place behind the backslash of its first bad escape. A text that is written with escapes is
    decoded as that text. So, in the grammar of accepted statements, the lexeme that stands for a
    literal is named by a spelling of this literal. -/
theorem literal_exact :
    (∀ body text, unescape body = .ok text ↔ LiteralBody body text) ∧
    (∀ body, (¬∃ text, LiteralBody body text) → ∃ fault n, unescape body = .error ⟨fault, n⟩) ∧
    (∀ body n, (∃ fault, unescape body = .error ⟨fault, n⟩) ↔
      ∃ before rest text, body = before ++ '\\' :: rest ∧ LiteralBody before text ∧
        BadEscape rest ∧ n = before.length + 1) ∧
    (∀ text, unescape (escapeLiteral text) = .ok text) ∧
    ∀ ss description g, Grammar.ofStatements ss description = .ok g →
      ∃ o d, Lowered ss g o d ∧ ∀ raw text s,
        Element.decode raw = .ok (.terminal (.literal text)) → d.StandsFor o raw s →
          ∃ name, g.symbols[s]? = some ⟨name, .lexeme⟩ ∧
            name.toList = '\'' :: (escapeLiteral text ++ ['\'']) ∧
            Element.decode name = .ok (.terminal (.literal text)) := by
  refine ⟨fun _ _ => unescape_eq_ok_iff, fun body hnone => ?_, fun _ _ => unescape_eq_error_iff,
    unescape_escapeLiteral, fun ss description g h => ?_⟩
  · rcases exists_literalBody body with hform | ⟨before, rest, text, rfl, htext, hbad⟩
    · exact absurd hform hnone
    · obtain ⟨fault, hfault⟩ := hbad.exists_unescape_eq htext
      exact ⟨fault, _, hfault⟩
  · obtain ⟨o, d, hlowered⟩ := Lowered.exists_of_ofStatements h
    refine ⟨o, d, hlowered, fun raw text s hraw hs => ?_⟩
    obtain ⟨hsymbol, hname⟩ := hlowered.decode_name hraw hs
    exact ⟨_, hsymbol, Terminal.toList_spelling_literal text, hname⟩

/-- A word between two kinds of quotes, with a quote and an arrow in it, is discarded. -/
def Statement.quotedWord : List Statement :=
  [.rule "text" ["'x'"], .discarded "\"it's→\""]

/-- The discarded word is the literal that its name is a spelling of. A digit class in a literal is
    a bad escape, behind the third character. -/
theorem literal_exact_quotedWord :
    ∃ g o d s, Grammar.ofStatements Statement.quotedWord "quoted word" = .ok g ∧
      Lowered Statement.quotedWord g o d ∧ d.StandsFor o "\"it's→\"" s ∧
      g.symbols[s]? = some ⟨"'it\\'s\\u\x7b2192\x7d'", .lexeme⟩ ∧
      Element.decode "'it\\'s\\u\x7b2192\x7d'" =
        .ok (.terminal (.literal ['i', 't', '\'', 's', '→'])) ∧
      LiteralBody "a\\n\\\\".toList ['a', '\n', '\\'] ∧
      ∃ fault, unescape "ab\\d".toList = .error ⟨fault, 3⟩ := by
  obtain ⟨haccepted, -, hrefused, -, hlexemes⟩ := literal_exact
  have hword : Element.decode "\"it's→\"" =
      .ok (.terminal (.literal ['i', 't', '\'', 's', '→'])) := by
    decide
  have htest : (Grammar.ofStatements Statement.quotedWord "quoted word").toOption.any
      (fun _ => true) = true := by
    decide +kernel
  obtain ⟨g, hg, -⟩ := exists_eq_ok_of_any htest
  obtain ⟨o, d, h, hnames⟩ := hlexemes _ _ _ hg
  have hdiscarded : Statement.discard "\"it's→\"" 0 ∈ Statement.quotedWord :=
    List.mem_cons_of_mem _ List.mem_cons_self
  obtain ⟨s, -, hs⟩ := h.discards hdiscarded
  obtain ⟨name, hsymbol, hspelled, hdecoded⟩ := hnames _ _ s hword hs
  have hname : name = "'it\\'s\\u\x7b2192\x7d'" := by
    rw [← String.toList_inj, hspelled]
    decide
  subst hname
  refine ⟨g, o, d, s, hg, h, hs, hsymbol, hdecoded, (haccepted _ _).mp (by decide),
    (hrefused _ _).mpr ⟨['a', 'b'], ['d'], ['a', 'b'], rfl, ?_, ?_, rfl⟩⟩
  · exact .plain (by decide) (.plain (by decide) .nil)
  · rintro written c rest hform heq
    have hread := hform.read rest
    rw [← heq] at hread
    cases hread

end Scannerless
