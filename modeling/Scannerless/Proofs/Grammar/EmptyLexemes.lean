import Mathlib.Logic.Function.Iterate
import Scannerless.Proofs.Grammar.Checks
import Scannerless.Proofs.Grammar.Tokens

/-!
# Lexemes that can match nothing

The passes that mark the symbols which derive nothing end before they run out, and mark just
these symbols. A token that derives nothing is the symbol of a name, as terminals are not
empty, and the name denotes a language with the empty text. So a list of statements is refused
for an empty lexeme exactly if some element that is written among lexemes can match nothing, and
lexemes of accepted grammars cannot.

## Main statements

- `RuleTable.markNullable_nullableSymbols` — another pass would mark no symbol.
- `Drafted.derives_nil_iff` — a token derives nothing exactly if its element may be empty.
- `nullability_exact` — marks are exact, and so is the check for empty lexemes.
-/

namespace Scannerless

namespace RuleTable

variable {rules : Array Rule} {marks : Array Bool} {n : Nat}

/-- The marks are those of a number of passes. -/
theorem exists_nullableFrom_eq (rules : Array Rule) (rounds : Nat) (marks : Array Bool) :
    ∃ k ≤ rounds, nullableFrom rules rounds marks = (markNullable rules)^[k] marks := by
  induction rounds generalizing marks with
  | zero => exact ⟨0, Nat.le_refl 0, rfl⟩
  | succ rounds ih =>
    rw [nullableFrom]
    split
    · exact ⟨0, Nat.zero_le _, rfl⟩
    · obtain ⟨k, hk, heq⟩ := ih (markNullable rules marks)
      exact ⟨k + 1, Nat.succ_le_succ hk, by rw [heq, Function.iterate_succ_apply]⟩

/-- A pass leaves marks as they are that are closed under the rules. -/
theorem MarksClosed.foldl_markRule {rs : List Rule} (h : MarksClosed rs marks) :
    rs.foldl markRule marks = marks := by
  induction rs with
  | nil => rfl
  | cons r rs ih =>
    have hsame : markRule marks r = marks := by
      rw [markRule]
      split
      next hall =>
        have hlhs : Marked marks r.lhs :=
          h r List.mem_cons_self fun s hs => List.all_eq_true.mp hall s hs
        refine Array.ext Array.size_setIfInBounds fun i hi hi' => ?_
        rw [Array.getElem_setIfInBounds hi']
        split
        next heq =>
          subst heq
          simpa [Marked, Array.getD_eq_getD_getElem?, hi'] using hlhs.symm
        next => rfl
      next => rfl
    rw [List.foldl_cons, hsame]
    exact ih fun r' hr' => h r' (List.mem_cons_of_mem r hr')

/-- Another pass would mark no symbol. -/
theorem markNullable_nullableSymbols (hlt : ∀ r ∈ rules.toList, r.lhs < n) :
    markNullable rules (nullableSymbols rules n) = nullableSymbols rules n := by
  rw [markNullable_eq]
  exact MarksClosed.foldl_markRule
    (marksClosed_nullableFrom Array.size_replicate hlt (Nat.le_add_right _ _))

end RuleTable

/-! ### Elements that may be empty -/

theorem Terminal.Written.nil_notMem {t : Terminal} (ht : t.Written) : [] ∉ t.language := by
  obtain ⟨raw, hraw⟩ := ht
  rcases Element.decode_eq_terminal hraw with ⟨text, hne, rfl⟩ | ⟨body, cls, -, rfl⟩
  · exact fun hmem => hne (Set.mem_singleton_iff.mp hmem).symm
  · rintro ⟨c, -, hnil⟩
    cases hnil

theorem Grammar.matches_nil_iff {g : Grammar} {s : SymbolId} :
    g.Matches s [] ↔ g.lexical.Derives [s] [] :=
  ⟨derives_nil_of_matches, fun h => ⟨[], h, .nil⟩⟩

namespace Drafted

variable {ss : List Statement} {g : Grammar} {o : Outline} {d : Draft} {s : SymbolId}
  {name : String}

theorem derives_nil_iff_of_name (h : Drafted ss g o d) (hs : o.lexicalId? name = some s) :
    g.lexical.Derives [s] [] ↔ [] ∈ lexicalLanguage ss name := by
  rw [← Grammar.matches_nil_iff]
  exact h.matches_iff hs []

theorem not_derives_nil_of_terminal (h : Drafted ss g o d) {t : Terminal} (ht : t.Written)
    (hs : d.IsTerminal t s) : ¬g.lexical.Derives [s] [] := by
  rw [← Grammar.matches_nil_iff, h.matches_terminal_iff hs]
  exact ht.nil_notMem

/-- A name that denotes a text has lexical rules. -/
theorem exists_lexicalId?_of_mem (h : Drafted ss g o d) {text : List Char}
    (hmem : text ∈ lexicalLanguage ss name) : ∃ s, o.lexicalId? name = some s := by
  obtain ⟨alt, halt⟩ : ∃ alt, alt ∈ lexicalAlternatives ss name := by
    refine List.exists_mem_of_ne_nil _ fun hnil => ?_
    rw [lexicalLanguage_eq, declaredLanguage, hnil] at hmem
    exact hmem
  rw [← Outline.isLexical_iff, (Outline.lists_of_ofStatements h.outline).lexical]
  obtain ⟨x, hx, halt⟩ := List.mem_flatMap.mp halt
  exact ⟨x, hx, Statement.lexicalName?_of_mem halt⟩

/-- Some token derives nothing exactly if some element that is written among lexemes may be
    empty. -/
theorem derives_nil_iff (h : Drafted ss g o d) :
    (∃ s, d.Token s ∧ g.lexical.Derives [s] []) ↔ ∃ x ∈ ss, ∃ raw ∈ x.elements, ∃ e,
      Element.decode raw = .ok e ∧ [] ∈ e.language (lexicalLanguage ss) := by
  constructor
  · rintro ⟨s, hs, hnil⟩
    rcases h.exists_of_token hs with ⟨x, hx, raw, hraw, name, hdecode, hid⟩ | ⟨t, ht, hterminal⟩
    · exact ⟨x, hx, raw, hraw, .name name, hdecode, (h.derives_nil_iff_of_name hid).mp hnil⟩
    · exact absurd hnil (h.not_derives_nil_of_terminal ht hterminal)
  · rintro ⟨x, hx, raw, hraw, e, hdecode, hmem⟩
    cases e with
    | name name =>
      obtain ⟨s, hs⟩ := h.exists_lexicalId?_of_mem hmem
      exact ⟨s, h.token_of_name hx hraw hdecode hs, (h.derives_nil_iff_of_name hs).mpr hmem⟩
    | terminal t => exact absurd hmem (Terminal.Written.nil_notMem ⟨raw, hdecode⟩)

end Drafted

/-! ### The check -/

theorem Draft.requireNonempty_cases (d : Draft) (lexical : RuleTable) :
    (d.requireNonempty lexical = .ok () ∧ ∀ s, d.Token s → lexical.isNullable s = false) ∨
    ∃ s, d.Token s ∧ lexical.isNullable s = true ∧
      d.requireNonempty lexical = .error ⟨.emptyLexeme (d.name s), d.offset s⟩ := by
  rw [requireNonempty]
  cases hfind : (d.lexemes ++ d.discards).find? lexical.isNullable with
  | none =>
    refine Or.inl ⟨rfl, fun s hs => ?_⟩
    rw [List.find?_eq_none] at hfind
    simpa using hfind s (List.mem_append.mpr hs)
  | some s =>
    exact Or.inr ⟨s, List.mem_append.mp (List.mem_of_find?_eq_some hfind),
      List.find?_some hfind, rfl⟩

namespace Prepared

variable {ss : List Statement} {o : Outline} {d : Draft} {start s : SymbolId}

theorem lexical_lt (h : Prepared ss o d start) :
    ∀ r ∈ d.lexical.toList, r.lhs < d.symbols.size := by
  obtain ⟨p, rfl, hp⟩ := (h.drafted "").exists_plan
  exact fun r hr => (hp.lexical r hr).1.elim Draft.lt_of_kind? Draft.lt_of_kind?

theorem isNullable_iff (h : Prepared ss o d start) :
    d.lexicalTable.isNullable s = true ↔ d.lexicalTable.Derives [s] [] :=
  RuleTable.isNullable_ofRules_iff h.lexical_lt s

/-- If lexical symbols do not use themselves, the statements are refused for an empty lexeme
    exactly if some token derives nothing. -/
theorem emptyLexeme_iff (h : Prepared ss o d start) (description : String)
    (hlexical : d.requireAcyclic d.referencesOf .lexicalCycle = .ok ()) :
    (∃ name offset, Grammar.ofStatements ss description = .error ⟨.emptyLexeme name, offset⟩) ↔
      ∃ s, d.Token s ∧ d.lexicalTable.Derives [s] [] := by
  have heq : Grammar.ofStatements ss description = do
      d.requireNonempty d.lexicalTable
      d.requireAcyclic (Draft.aloneFrom d.structuralTable) .ruleCycle
      return d.grammar o start description := by
    rw [h.ofStatements_eq, hlexical]
    rfl
  rcases d.requireNonempty_cases d.lexicalTable with ⟨hok, hnone⟩ | ⟨s, hs, hnullable, herror⟩
  · constructor
    · rintro ⟨name, offset, hfault⟩
      -- Then only a cycle of rules can be at fault.
      have hcycle : d.requireAcyclic (Draft.aloneFrom d.structuralTable) .ruleCycle =
          .error ⟨.emptyLexeme name, offset⟩ := by
        rw [heq, hok] at hfault
        cases hrest : d.requireAcyclic (Draft.aloneFrom d.structuralTable) .ruleCycle with
        | ok u =>
          rw [hrest] at hfault
          cases hfault
        | error fault =>
          rw [hrest] at hfault
          exact congrArg Except.error (Except.error.inj hfault)
      obtain ⟨cycle, -, hcause⟩ := Draft.requireAcyclic_eq_error_iff.mp hcycle
      cases hcause
    · rintro ⟨s, hs, hnil⟩
      have hnullable := h.isNullable_iff.mpr hnil
      rw [hnone s hs] at hnullable
      cases hnullable
  · have hfault : Grammar.ofStatements ss description =
        .error ⟨.emptyLexeme (d.name s), d.offset s⟩ := by
      rw [heq, herror]
      rfl
    exact ⟨fun _ => ⟨s, hs, h.isNullable_iff.mp hnullable⟩, fun _ => ⟨_, _, hfault⟩⟩

end Prepared

/-- No lexeme of an accepted list of statements derives nothing, and nothing that is
    discarded does. -/
theorem Lowered.not_matches_nil {ss : List Statement} {g : Grammar} {o : Outline} {d : Draft}
    {s : SymbolId} (h : Lowered ss g o d) (hs : g.kind? s = some .lexeme ∨ s ∈ g.discards) :
    ¬g.Matches s [] := by
  have htoken (htoken : d.Token s) : ¬g.Matches s [] := by
    intro hnil
    obtain ⟨description, hfinish⟩ := h.grammar
    obtain ⟨start, -, hnonempty, -, -⟩ := Draft.finish_eq_ok hfinish
    have hnullable := h.coherent.lexical_nullable s (Grammar.matches_nil_iff.mp hnil)
    rw [h.tables.2.2.1, Draft.isNullable_of_requireNonempty hnonempty htoken] at hnullable
    cases hnullable
  rcases hs with hs | hs
  · rw [Grammar.kind?, h.tables.1, ← Draft.kind?] at hs
    rcases h.drafted.token_of_lexeme hs with hs | ⟨t, ht, hterminal⟩
    · exact htoken hs
    · rw [Grammar.matches_nil_iff]
      exact h.drafted.not_derives_nil_of_terminal ht hterminal
  · rw [h.tables.2.2.2] at hs
    exact htoken (Or.inr hs)

/-- The passes over a list of rules end, after as many passes as there are symbols at most, with
    the symbols marked that derive nothing. If the checks before it find nothing, statements are
    refused for an empty lexeme exactly if an element that they write in a structural rule, as a
    separator or to be discarded denotes the empty text, by the lexical definitions of names.
    In a grammar that was accepted no lexeme matches the empty text, and nothing that is
    discarded does. -/
theorem nullability_exact :
    (∀ (rules : Array Rule) (n : Nat), (∀ r ∈ rules.toList, r.lhs < n) →
      (∃ k ≤ n, RuleTable.nullableSymbols rules n =
        (RuleTable.markNullable rules)^[k] (Array.replicate n false)) ∧
      RuleTable.markNullable rules (RuleTable.nullableSymbols rules n) =
        RuleTable.nullableSymbols rules n ∧
      ∀ s, (RuleTable.nullableSymbols rules n).getD s false = true ↔
        (RuleTable.ofRules rules n).Derives [s] []) ∧
    (∀ (ss : List Statement) (description : String) (o : Outline) (d : Draft) (start : SymbolId),
      Prepared ss o d start → d.requireAcyclic d.referencesOf .lexicalCycle = .ok () →
      ((∃ name offset, Grammar.ofStatements ss description =
          .error ⟨.emptyLexeme name, offset⟩) ↔
        ∃ x ∈ ss, ∃ raw ∈ x.elements, ∃ e, Element.decode raw = .ok e ∧
          [] ∈ e.language (lexicalLanguage ss))) ∧
    ∀ g : Grammar, g.IsCompiled → ∀ s, g.kind? s = some .lexeme ∨ s ∈ g.discards →
      ¬g.Matches s [] := by
  refine ⟨fun rules n hlt => ⟨?_, ?_, ?_⟩, fun ss description o d start h hlexical => ?_,
    fun g hg s hs => ?_⟩
  · exact RuleTable.exists_nullableFrom_eq rules n _
  · exact RuleTable.markNullable_nullableSymbols hlt
  · exact RuleTable.isNullable_ofRules_iff hlt
  · exact (h.emptyLexeme_iff description hlexical).trans (h.drafted description).derives_nil_iff
  · obtain ⟨ss, description, hss⟩ := hg.exists_ofStatements
    obtain ⟨o, d, hlowered⟩ := Lowered.exists_of_ofStatements hss
    exact hlowered.not_matches_nil hs

/-- Numbers of digits, of which there need not be any. -/
def Definition.blankNumbers : Definition :=
  ⟨[.rule "sum" ["number", "'+'", "sum"], .rule "sum" ["number"], .lexeme "number" ["digit*"],
    .lexeme "digit" ["[0-9]"]], "numbers"⟩

/-- A number without digits is found: it is refused where it is used, and it denotes the empty
    text. The marks of its rules are those of two passes at most. -/
theorem nullability_exact_blankNumbers :
    (∃ name offset, Grammar.ofStatements Definition.blankNumbers.statements "numbers" =
      .error ⟨.emptyLexeme name, offset⟩) ∧
    (∃ x ∈ Definition.blankNumbers.statements, ∃ raw ∈ x.elements, ∃ e,
      Element.decode raw = .ok e ∧
      [] ∈ e.language (lexicalLanguage Definition.blankNumbers.statements)) ∧
    (∃ k ≤ 2, RuleTable.nullableSymbols #[⟨0, [1, 1], "a", .splice, [true, true], 0⟩,
        ⟨1, [], "b", .splice, [], 0⟩] 2 = (RuleTable.markNullable #[⟨0, [1, 1], "a", .splice,
          [true, true], 0⟩, ⟨1, [], "b", .splice, [], 0⟩])^[k] (Array.replicate 2 false)) ∧
    ∃ g, Definition.words.compile = .ok g ∧ ∃ s, s ∈ g.discards ∧ ¬g.Matches s [] := by
  have hrun : (prepare Definition.blankNumbers.statements).toOption.any (fun (_, d, _) =>
      (d.requireAcyclic d.referencesOf .lexicalCycle).isOk) = true := by
    decide +kernel
  have herror : errorOf? (Grammar.ofStatements Definition.blankNumbers.statements "numbers") =
      some ⟨.emptyLexeme "number", 0⟩ := by
    decide +kernel
  have hwords : Definition.words.compile.toOption.any (fun g => g.discards == [2]) = true := by
    decide +kernel
  obtain ⟨⟨o, d, start⟩, hprepare, hlexical⟩ := exists_eq_ok_of_any hrun
  obtain ⟨g, hg, hdiscards⟩ := exists_eq_ok_of_any hwords
  have hfault : ∃ name offset, Grammar.ofStatements Definition.blankNumbers.statements "numbers" =
      .error ⟨.emptyLexeme name, offset⟩ :=
    ⟨_, _, eq_error_of_errorOf? herror⟩
  obtain ⟨hmarks, hcheck, haccepted⟩ := nullability_exact
  refine ⟨hfault, ?_, (hmarks _ 2 (by decide)).1, g, hg, 2, ?_, ?_⟩
  · exact (hcheck _ _ o d start (.of_prepare hprepare) (eq_ok_of_isOk hlexical)).mp hfault
  · rw [eq_of_beq hdiscards]
    exact List.mem_singleton_self 2
  · refine haccepted g (Or.inl ⟨_, hg⟩) 2 (Or.inr ?_)
    rw [eq_of_beq hdiscards]
    exact List.mem_singleton_self 2

end Scannerless
