import Scannerless.Proofs.Grammar.Lexemes
import Scannerless.Proofs.GrammarText.Layout
import Scannerless.Proofs.GrammarText.Words

/-!
# The rules of the notation

The grammar of the notation, by the names of its symbols. Its productions are listed here as what
they are about: marks and tokens, the parts of statements, and five kinds of sequences, which
have the same productions up to their items and separators.

## Main definitions

- `Notion` — what a symbol of the notation stands for, with `Sequence` for lists of parts.
- `GrammarText.productions` — the productions of the notation.
- `GrammarText.Conforms` — a grammar has these productions, and its lexemes match the tokens.

## Main statements

- `GrammarText.exists_conforms` — the grammar of the notation conforms.
-/

namespace Scannerless.GrammarText

/-! ### Notions -/

/-- Lists of parts. -/
inductive Sequence where
  | items
  | adverbs
  | alternatives
  | tiers
  | statements
  deriving DecidableEq

/-- What the symbols of the notation stand for. A sequence has two symbols: one for its items one
    behind the other, and one for the whole. -/
inductive Notion where
  /-- A word that is written as it is. -/
  | mark (word : String)
  /-- A token, by the name of its lexical definition. -/
  | token (name : String)
  | value
  | symbol
  | element
  | item
  | adverb
  | alternative
  | statement
  | listed (s : Sequence)
  | whole (s : Sequence)
  deriving DecidableEq

namespace Sequence

def name : Sequence → String
  | items => "rhs"
  | adverbs => "adverbs"
  | alternatives => "alternatives"
  | tiers => "tiers"
  | statements => "statements"

/-- What the sequence is one of. -/
def part : Sequence → Notion
  | items => .item
  | adverbs => .adverb
  | alternatives => .alternative
  | tiers => .whole .alternatives
  | statements => .statement

/-- The mark between two parts. -/
def separator : Sequence → List String
  | alternatives => ["|"]
  | tiers => ["||"]
  | _ => []

/-- Whether there may be no parts. -/
def mayBeEmpty : Sequence → Bool
  | alternatives | tiers => false
  | _ => true

end Sequence

/-- The names that the notation's grammar has for its symbols. -/
def Notion.name : Notion → String
  | mark word => "'" ++ word ++ "'"
  | token name => name
  | value => "adverb_value"
  | symbol => "symbol"
  | element => "element"
  | item => "rhs_item"
  | adverb => "adverb"
  | alternative => "alternative"
  | statement => "statement"
  | listed s => s.name ++ "[Seq]"
  | whole s => s.name

/-- The words that are written in the notation's grammar. -/
def keywords : List String :=
  [":start", ":default", ":discard", "::=", "~", "lexeme", "default", "=", "=>", "|", "||"]

/-- The tokens that occur in rules. -/
def tokenNames : List String :=
  ["bare_name", "bracketed_name", "builtin_action", "integer", "literal", "char_class",
    "quantifier"]

/-- The names of what may stand between tokens. -/
def gapNames : List String :=
  ["whitespace", "comment"]

/-- The notions that have rules. -/
def ruled : List Notion :=
  [.value, .symbol, .element, .item, .adverb, .alternative, .statement] ++
    [.items, .adverbs, .alternatives, .tiers, .statements].flatMap fun s =>
      [.listed s, .whole s]

/-- The notion with a name. -/
def Notion.ofName (name : String) : Notion :=
  ((ruled ++ keywords.map Notion.mark).find? (·.name == name)).getD (.token name)

theorem Notion.name_ofName (name : String) : (Notion.ofName name).name = name := by
  rw [ofName]
  cases hfind : (ruled ++ keywords.map mark).find? (·.name == name) with
  | none => rfl
  | some n => simpa using List.find?_some hfind

/-! ### Productions -/

/-- A rule by the notions of its symbols. -/
structure Production where
  lhs : Notion
  rhs : List Notion
  semantics : Semantics
  mask : List Bool
  deriving DecidableEq

/-- A production whose values are all handed to an action, or to the default. -/
def production (lhs : Notion) (rhs : List Notion) (action : Option Action) : Production :=
  ⟨lhs, rhs, .apply action, rhs.map fun _ => true⟩

/-- The productions of a sequence: the items are listed from the left, and the list is put
    together by the action that has the name of the sequence. -/
def Sequence.productions (s : Sequence) : List Production :=
  [⟨.listed s, [s.part], .splice, [true]⟩,
    ⟨.listed s, .listed s :: s.separator.map .mark ++ [s.part], .splice,
      true :: s.separator.map (fun _ => false) ++ [true]⟩,
    production (.whole s) [.listed s] (some (.named s.name))] ++
  if s.mayBeEmpty then [production (.whole s) [] (some (.named s.name))] else []

def statementProductions : List Production :=
  [production .statement [.mark ":start", .mark "::=", .symbol] (some (.named "start")),
    production .statement [.mark ":default", .mark "::=", .whole .adverbs]
      (some (.named "default")),
    production .statement [.mark ":discard", .mark "~", .element] (some (.named "discard")),
    production .statement [.mark "lexeme", .mark "default", .mark "=", .whole .adverbs]
      (some (.named "lexeme_default")),
    production .statement [.symbol, .mark "::=", .whole .tiers] (some (.named "structural")),
    production .statement [.symbol, .mark "~", .whole .alternatives] (some (.named "lexical"))]

def rightSideProductions : List Production :=
  [production .item [.element] (some (.named "item")),
    production .item [.element, .token "quantifier"] (some (.named "quantified")),
    production .element [.symbol] (some .first),
    production .element [.token "literal"] (some (.named "spelled")),
    production .element [.token "char_class"] (some (.named "spelled")),
    production .symbol [.token "bare_name"] (some (.named "spelled")),
    production .symbol [.token "bracketed_name"] (some (.named "spelled"))]

/-- The tokens that may stand for the value of an adverb. -/
def valueNames : List String :=
  ["bare_name", "bracketed_name", "builtin_action", "integer", "literal", "char_class"]

/-- All productions of the notation, in the order of its rules. -/
def productions : List Production :=
  Sequence.statements.productions ++ statementProductions ++ Sequence.tiers.productions ++
    Sequence.alternatives.productions ++
    [production .alternative [.whole .items, .whole .adverbs] (some (.named "alternative"))] ++
    Sequence.items.productions ++ rightSideProductions ++ Sequence.adverbs.productions ++
    [production .adverb [.token "bare_name", .mark "=>", .value] (some (.named "adverb"))] ++
    valueNames.map fun name => production .value [.token name] none

/-- The notion of a symbol of a grammar. -/
def notion (g : Grammar) (s : SymbolId) : Notion :=
  Notion.ofName (g.name s)

/-- A rule of a grammar by the notions of its symbols. -/
def productionOf (g : Grammar) (r : Rule) : Production :=
  ⟨notion g r.lhs, r.rhs.map (notion g), r.semantics, r.mask⟩

/-! ### The compiled grammar -/

/-- A symbol is the one that has its name, and the name is one of the notation's. -/
def checkSymbol (g : Grammar) (s : SymbolId) : Bool :=
  match g.kind? s with
  | some .nonterminal =>
    g.findSymbol? (g.name s) == some s && (ruled.map Notion.name).contains (g.name s)
  | some .lexeme =>
    g.findSymbol? (g.name s) == some s &&
      (tokenNames ++ gapNames ++ keywords.map fun w => (Notion.mark w).name).contains (g.name s)
  | _ => true

/-- Whether a grammar is that of the notation, by the names of its symbols. -/
def check (g : Grammar) : Bool :=
  g.longestMatch && g.defaultAction.isNone && g.name g.start == (Notion.whole .statements).name &&
    g.discards.map g.name == gapNames &&
    (g.structural.rules.toList.map fun r =>
        (g.name r.lhs, r.rhs.map g.name, r.semantics, r.mask)) ==
      (productions.map fun p => (p.lhs.name, p.rhs.map Notion.name, p.semantics, p.mask)) &&
    (List.range g.symbols.size).all (checkSymbol g)

theorem check_grammar : grammar.toOption.any check = true := by
  decide +kernel

/-- A symbol of structural rules. -/
def IsStructural (g : Grammar) (s : SymbolId) : Prop :=
  g.kind? s = some .nonterminal ∨ g.kind? s = some .lexeme

section

variable {g : Grammar} {id : RuleId} {rule : Rule}

theorem isStructural_lhs (hg : g.Coherent) (hrule : g.structural.rule? id = some rule) :
    IsStructural g rule.lhs :=
  Or.inl (hg.structural_lhs id _ (RuleTable.lhs?_of_rule? hrule))

theorem isStructural_rhs (hg : g.Coherent) (hrule : g.structural.rule? id = some rule) :
    ∀ s ∈ rule.rhs, IsStructural g s := by
  intro s hs
  rw [← RuleTable.rhs_of_rule? hrule] at hs
  exact (hg.structural_rhs id s hs).imp_right And.left

/-- The left side of a rule derives what the symbols on its right side derive. -/
theorem derivesFor_of_rule (hg : g.Coherent) (hrule : g.structural.rule? id = some rule)
    {α : Type} {R : SymbolId → α → Prop} {xss : List (List α)}
    (h : List.Forall₂ (fun s xs => IsStructural g s → g.structural.DerivesFor R [s] xs) rule.rhs
      xss) : g.structural.DerivesFor R [rule.lhs] xss.flatten := by
  refine RuleTable.DerivesFor.of_rule hrule (RuleTable.derivesFor_flatten ?_)
  exact ((List.forall₂_and_left _ _).mpr ⟨isStructural_rhs hg hrule, h⟩).imp
    fun _ _ hs => hs.2 hs.1

end

/-- A symbol matches a keyword or the tokens of a name. -/
def Denotes (g : Grammar) (s : SymbolId) : Prop :=
  (∃ w ∈ keywords, notion g s = .mark w ∧ ∀ text, g.Matches s text ↔ text = w.toList) ∨
    ∃ name ∈ tokenNames ++ gapNames, notion g s = .token name ∧
      ∀ text, g.Matches s text ↔ text ∈ language name

/-- A grammar has the productions of the notation, and its lexemes match the keywords and
    the tokens. -/
structure Conforms (g : Grammar) : Prop where
  coherent : g.Coherent
  longestMatch : g.longestMatch = true
  defaultAction : g.defaultAction = none
  start : notion g g.start = .whole .statements
  discards : g.discards.map g.name = gapNames
  productions : g.structural.rules.toList.map (productionOf g) = GrammarText.productions
  nonterminal : ∀ s, g.kind? s = some .nonterminal → notion g s ∈ ruled
  lexeme : ∀ s, g.kind? s = some .lexeme → Denotes g s
  unique : ∀ s s', IsStructural g s → IsStructural g s' → notion g s = notion g s' → s = s'

theorem ofName_production : ∀ p ∈ productions, ∀ n ∈ p.lhs :: p.rhs, Notion.ofName n.name = n := by
  decide

/-- Productions are told by the names in them. -/
theorem productionOf_eq {g : Grammar} {r : Rule} {p : Production} (hp : p ∈ productions)
    (h : (g.name r.lhs, r.rhs.map g.name, r.semantics, r.mask) =
      (p.lhs.name, p.rhs.map Notion.name, p.semantics, p.mask)) : productionOf g r = p := by
  simp only [Prod.mk.injEq] at h
  obtain ⟨hlhs, hrhs, hsemantics, hmask⟩ := h
  have hnotions := List.forall_mem_cons.mp (ofName_production p hp)
  have hmap : r.rhs.map (notion g) = p.rhs := by
    have hnames : r.rhs.map (notion g) = (r.rhs.map g.name).map Notion.ofName := by
      rw [List.map_map]
      rfl
    have hsame : p.rhs.map (Notion.ofName ∘ Notion.name) = p.rhs.map id :=
      List.map_congr_left hnotions.2
    rw [hnames, hrhs, List.map_map, hsame, List.map_id]
  rw [productionOf, notion, hlhs, hnotions.1, hmap, hsemantics, hmask]

section

variable {g : Grammar} {o : Outline} {d : Draft} {s : SymbolId}

theorem denotes_of_lexeme (h : Lowered statements g o d)
    (hunique : ∀ s, g.kind? s = some .lexeme → g.findSymbol? (g.name s) = some s)
    (hs : g.kind? s = some .lexeme)
    (hname : g.name s ∈ tokenNames ++ gapNames ++ keywords.map fun w => (Notion.mark w).name) :
    Denotes g s := by
  rcases List.mem_append.mp hname with hname | hname
  · -- The name has a lexical definition.
    have hdefined : ∀ name ∈ tokenNames ++ gapNames, Notion.ofName name = .token name ∧
        ∃ x ∈ statements, x.lexicalName? = some name := by
      decide
    obtain ⟨hnotion, hx⟩ := hdefined _ hname
    exact Or.inr ⟨_, hname, hnotion, h.matches_iff_of_name (hunique s hs) hx⟩
  · -- The name is that of a literal in a rule.
    obtain ⟨w, hw, hname⟩ := List.mem_map.mp hname
    have hwritten : ∀ w ∈ keywords, Notion.ofName (Notion.mark w).name = .mark w ∧
        (Terminal.literal w.toList).spelling = (Notion.mark w).name ∧
        Element.decode (Notion.mark w).name = .ok (.terminal (.literal w.toList)) ∧
        ∃ x ∈ statements, (Notion.mark w).name ∈ x.elements := by
      decide
    obtain ⟨hnotion, hspelling, hdecode, hx⟩ := hwritten w hw
    refine Or.inl ⟨w, hw, by rw [notion, ← hname, hnotion], ?_⟩
    exact h.matches_iff_of_spelling hunique hs hx hdecode (hspelling.trans hname)

theorem conforms_of_check (h : Lowered statements g o d) (hcheck : check g = true) :
    Conforms g := by
  simp only [check, Bool.and_eq_true, beq_iff_eq, Option.isNone_iff_eq_none, List.all_eq_true,
    List.mem_range] at hcheck
  obtain ⟨⟨⟨⟨⟨hlongest, hdefault⟩, hstart⟩, hdiscards⟩, hrules⟩, hsymbols⟩ := hcheck
  have hsize {s : SymbolId} {kind : SymbolKind} (hs : g.kind? s = some kind) :
      s < g.symbols.size := by
    obtain ⟨symbol, hsymbol, -⟩ := Option.map_eq_some_iff.mp hs
    exact (Array.getElem?_eq_some_iff.mp hsymbol).1
  have hnonterminal (s : SymbolId) (hs : g.kind? s = some .nonterminal) :
      g.findSymbol? (g.name s) = some s ∧ g.name s ∈ ruled.map Notion.name := by
    simpa [checkSymbol, hs] using hsymbols s (hsize hs)
  have hlexeme (s : SymbolId) (hs : g.kind? s = some .lexeme) :
      g.findSymbol? (g.name s) = some s ∧
        g.name s ∈ tokenNames ++ gapNames ++ keywords.map fun w => (Notion.mark w).name := by
    have hsymbol := hsymbols s (hsize hs)
    rw [checkSymbol, hs, Bool.and_eq_true, beq_iff_eq, List.contains_iff_mem] at hsymbol
    exact hsymbol
  have hfound {s : SymbolId} (hs : IsStructural g s) : g.findSymbol? (g.name s) = some s :=
    hs.elim (fun hs => (hnonterminal s hs).1) fun hs => (hlexeme s hs).1
  have hruled : ∀ n ∈ ruled, Notion.ofName n.name = n := by
    decide
  refine ⟨h.coherent, hlongest, hdefault, ?_, hdiscards, ?_, fun s hs => ?_, fun s hs => ?_,
    fun s s' hs hs' heq => ?_⟩
  · rw [notion, hstart]
    decide
  · -- Names of one row are those of one production.
    have hlength := congrArg List.length hrules
    refine List.ext_getElem (by simpa using hlength) fun i hi hi' => ?_
    have hrow := List.getElem_of_eq hrules (by simpa using hi)
    rw [List.getElem_map, List.getElem_map] at hrow
    rw [List.getElem_map]
    exact productionOf_eq (List.getElem_mem hi') hrow
  · obtain ⟨n, hn, hname⟩ := List.mem_map.mp (hnonterminal s hs).2
    rw [notion, ← hname, hruled n hn]
    exact hn
  · exact denotes_of_lexeme h (fun s hs => (hlexeme s hs).1) hs (hlexeme s hs).2
  · have hname : g.name s = g.name s' := by
      rw [← Notion.name_ofName (g.name s), ← Notion.name_ofName (g.name s')]
      exact congrArg Notion.name heq
    have hsame := hfound hs
    rw [hname, hfound hs', Option.some_inj] at hsame
    exact hsame.symm

end

/-- The grammar of the notation conforms. -/
theorem exists_conforms : ∃ g, grammar = .ok g ∧ Conforms g := by
  obtain ⟨g, hg, hcheck⟩ := exists_eq_ok_of_any check_grammar
  refine ⟨g, hg, ?_⟩
  obtain ⟨o, d, hlowered⟩ := Lowered.exists_of_ofStatements (Grammar.ofStatements_of_compile hg)
  exact conforms_of_check hlowered hcheck

end Scannerless.GrammarText
