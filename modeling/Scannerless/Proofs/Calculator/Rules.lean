import Scannerless.Proofs.Calculator.Expression
import Scannerless.Proofs.GrammarText.Notions

/-!
# The rules of the calculator

The statements of the grammar of expressions, and the productions that they are lowered to. There
is a symbol for each level, and one for whole expressions, which is a level above all operators.
The productions of operators follow one pattern, and every level takes in the one below it.

## Main definitions

- `Calculator.statements` — what the grammar of expressions states.
- `Calculator.Part` — what its symbols stand for.
- `Calculator.productions` — its productions in the order of its rules.
- `Calculator.Conforms` — a grammar has these productions, and its lexemes match the tokens.

## Main statements

- `Calculator.exists_conforms_statements` — the grammar of the statements conforms.
-/

namespace Scannerless.Calculator

open Text GrammarText

/-! ### Statements -/

/-- A right side with adverbs. -/
def alternative (items : List String) (adverbs : List (String × String)) : Alternative :=
  adverbs.foldl (fun a (name, value) => a.withAdverb name value) (.ofItems items)

/-- The right sides of expressions, from the tightest tier on. -/
def tiers : List (List Alternative) :=
  [[alternative ["num"] [("action", "num")],
      alternative ["'('", "expr", "')'"] [("assoc", "group"), ("action", "parens")],
      alternative ["name", "'('", "expr", "')'"] [("assoc", "group"), ("action", "call")]],
    [alternative ["expr", "'^'", "expr"] [("assoc", "right"), ("action", "pow")]],
    [alternative ["'-'", "expr"] [("action", "neg")]],
    [alternative ["expr", "'*'", "expr"] [("action", "mul")],
      alternative ["expr", "'/'", "expr"] [("action", "div")],
      alternative ["expr", "'%'", "expr"] [("action", "rem")]],
    [alternative ["expr", "'+'", "expr"] [("action", "add")],
      alternative ["expr", "'-'", "expr"] [("action", "sub")]]]

/-- What the grammar of expressions states. -/
def statements : List Statement :=
  [.longestMatch true,
    .discarded "ws",
    .prioritized "expr" tiers,
    .lexical "num" [.ofItems ["digits"], .ofItems ["digits", "'.'", "digits"]] 0,
    .lexeme "digits" ["[0-9]+"],
    .lexeme "name" ["[a-z_]+"],
    .lexeme "ws" ["[\\s]+"]]

/-! ### Parts -/

/-- What the symbols of the grammar stand for. The level 5 is that of whole expressions. -/
inductive Part where
  | tier (level : Nat)
  | number
  | name
  | blanks
  | mark (c : Char)
  deriving DecidableEq

namespace Part

def tierNames : List String :=
  ["expr[0]", "expr[1]", "expr[2]", "expr[3]", "expr[4]", "expr"]

/-- The name that the grammar has for the symbol of a part. -/
def symbol : Part → String
  | tier level => tierNames.getD level ""
  | number => "num"
  | name => "name"
  | blanks => "ws"
  | mark c => String.ofList ['\'', c, '\'']

/-- The parts that have rules. -/
def ruled : List Part :=
  [tier 0, tier 1, tier 2, tier 3, tier 4, tier 5]

/-- The parts that are lexemes. -/
def lexemes : List Part :=
  [number, name, blanks] ++ marks.map mark

def all : List Part :=
  ruled ++ lexemes

theorem symbol_injective : ∀ p ∈ all, ∀ p' ∈ all, p.symbol = p'.symbol → p = p' := by
  decide

/-- The texts of the lexemes of a part. -/
def Spells : Part → List Char → Prop
  | tier _ => fun _ => False
  | number => IsNumber
  | name => IsName
  | blanks => fun text => text ≠ [] ∧ ∀ c ∈ text, isBlank c = true
  | mark c => (· = [c])

end Part

/-! ### Productions -/

/-- A rule by the parts of its symbols. All of its values are kept. -/
structure Production where
  lhs : Part
  rhs : List Part
  semantics : Semantics
  deriving DecidableEq

/-- A production with an action. -/
def production (level : Nat) (rhs : List Part) (action : String) : Production :=
  ⟨.tier level, rhs, .apply (some (.named action))⟩

/-- The name of the action of an operator. -/
def Operator.action : Operator → String
  | power => "pow"
  | times => "mul"
  | divide => "div"
  | modulo => "rem"
  | plus => "add"
  | minus => "sub"

/-- A level takes in what the one below it is. -/
def ascent (level : Nat) : Production :=
  ⟨.tier (level + 1), [.tier level], .splice⟩

def infixed (op : Operator) : Production :=
  production op.level [.tier op.left, .mark op.mark, .tier op.right] op.action

/-- All productions of the grammar, in the order of its rules. -/
def productions : List Production :=
  [4, 0, 1, 2, 3].map ascent ++
    [production 0 [.number] "num",
      production 0 [.mark '(', .tier 5, .mark ')'] "parens",
      production 0 [.name, .mark '(', .tier 5, .mark ')'] "call",
      infixed .power,
      production 2 [.mark '-', .tier 2] "neg"] ++
    [.times, .divide, .modulo, .plus, .minus].map infixed

/-- A production by the names of its symbols, with the marks of a rule for the values it keeps. -/
def Production.row (p : Production) : String × List String × Semantics × List Bool :=
  (p.lhs.symbol, p.rhs.map Part.symbol, p.semantics, p.rhs.map fun _ => true)

/-- A rule by the names of its symbols. -/
def row (g : Grammar) (r : Rule) : String × List String × Semantics × List Bool :=
  (g.name r.lhs, r.rhs.map g.name, r.semantics, r.mask)

/-! ### The compiled grammar -/

/-- A symbol of structural rules is the one that has its name, and the name is one of a part. -/
def checkSymbol (g : Grammar) (s : SymbolId) : Bool :=
  match g.kind? s with
  | some .nonterminal =>
    g.findSymbol? (g.name s) == some s && (Part.ruled.map Part.symbol).contains (g.name s)
  | some .lexeme =>
    g.findSymbol? (g.name s) == some s && (Part.lexemes.map Part.symbol).contains (g.name s)
  | _ => true

/-- Whether a grammar is that of expressions, by the names of its symbols. -/
def check (g : Grammar) : Bool :=
  g.longestMatch && g.name g.start == (Part.tier 5).symbol &&
    g.discards.map g.name == [Part.blanks.symbol] &&
    g.structural.rules.toList.map (row g) == productions.map Production.row &&
    (List.range g.symbols.size).all (checkSymbol g)

theorem check_statements :
    (Definition.compile ⟨statements, description⟩).toOption.any check = true := by
  decide +kernel

/-- A grammar has the productions of expressions, and its lexemes match the tokens. -/
structure Conforms (g : Grammar) : Prop where
  coherent : g.Coherent
  longestMatch : g.longestMatch = true
  start : g.name g.start = (Part.tier 5).symbol
  discards : g.discards.map g.name = [Part.blanks.symbol]
  rules : g.structural.rules.toList.map (row g) = productions.map Production.row
  ruled : ∀ s, g.kind? s = some .nonterminal → ∃ p ∈ Part.ruled, g.name s = p.symbol
  lexeme : ∀ s, g.kind? s = some .lexeme → ∃ p ∈ Part.lexemes, g.name s = p.symbol ∧
    ∀ text, g.Matches s text ↔ p.Spells text
  unique : ∀ s s', IsStructural g s → IsStructural g s' → g.name s = g.name s' → s = s'

/-! ### Lexemes -/

section

variable {text : List Char}

/-- A name for one or more characters of a class. -/
theorem mem_repeated_iff {name spelling : String} {items : List ClassItem} {p : Char → Bool}
    (h : partsOf statements name = [[ofClass items spelling .plus]])
    (hp : ∀ c, CharClass.contains ⟨false, items, spelling⟩ c = p c) :
    text ∈ lexicalLanguage statements name ↔ text ≠ [] ∧ ∀ c ∈ text, p c = true := by
  rw [lexicalLanguage_of_parts h, List.map_singleton, List.sum_singleton, List.map_singleton,
    List.prod_singleton]
  refine CharClass.mem_plus_language.trans (and_congr_right fun _ => ?_)
  exact forall₂_congr fun c _ => by rw [hp]

theorem mem_digits_iff :
    text ∈ lexicalLanguage statements "digits" ↔ text ≠ [] ∧ ∀ c ∈ text, c.isDigit = true := by
  have h : partsOf statements "digits" = [[ofClass [.range '0' '9'] "[0-9]" .plus]] := by
    decide
  exact mem_repeated_iff h fun c => by simp [CharClass.contains, matches_digit]

theorem mem_name_iff : text ∈ lexicalLanguage statements "name" ↔ IsName text := by
  have h : partsOf statements "name" =
      [[ofClass [.range 'a' 'z', .char '_'] "[a-z_]" .plus]] := by
    decide
  exact mem_repeated_iff h fun c => by
    simp [CharClass.contains, matches_lower, matches_char, isNameChar]

theorem mem_blanks_iff :
    text ∈ lexicalLanguage statements "ws" ↔ text ≠ [] ∧ ∀ c ∈ text, isBlank c = true := by
  have h : partsOf statements "ws" = [[ofClass [.shorthand 's'] "[\\s]" .plus]] := by
    decide
  exact mem_repeated_iff h fun c => by
    simp [CharClass.contains, ClassItem.matches, shorthandMatches]

theorem mem_number_iff : text ∈ lexicalLanguage statements "num" ↔ IsNumber text := by
  have h : partsOf statements "num" =
      [[(some (.name "digits"), .one)],
        [(some (.name "digits"), .one), ofLiteral ['.'], (some (.name "digits"), .one)]] := by
    decide
  have hdigits : partLanguage (lexicalLanguage statements) (some (.name "digits"), .one) =
      lexicalLanguage statements "digits" :=
    rfl
  rw [lexicalLanguage_of_parts h]
  simp only [List.map_cons, List.map_nil, List.prod_cons, List.prod_nil, mul_one, List.sum_cons,
    List.sum_nil, add_zero, Language.mem_add, Language.mem_mul, hdigits, mem_digits_iff]
  constructor
  · rintro (⟨hne, hall⟩ | ⟨whole, ⟨hne, hwhole⟩, _, ⟨_, rfl, fraction, ⟨hne', hfraction⟩, rfl⟩,
      rfl⟩)
    · exact ⟨text, hne, hall, Or.inl rfl⟩
    · exact ⟨whole, hne, hwhole, Or.inr ⟨fraction, hne', hfraction, rfl⟩⟩
  · rintro ⟨whole, hne, hwhole, rfl | ⟨fraction, hne', hfraction, rfl⟩⟩
    · exact Or.inl ⟨hne, hwhole⟩
    · exact Or.inr ⟨whole, ⟨hne, hwhole⟩, _, ⟨['.'], rfl, fraction, ⟨hne', hfraction⟩, rfl⟩, rfl⟩

end

section

variable {g : Grammar} {o : Outline} {d : Draft} {s : SymbolId}

/-- A lexeme matches the texts of the part that has its name. -/
theorem spells_of_lexeme (h : Lowered statements g o d)
    (hunique : ∀ s, g.kind? s = some .lexeme → g.findSymbol? (g.name s) = some s)
    (hs : g.kind? s = some .lexeme) {p : Part} (hp : p ∈ Part.lexemes)
    (hname : g.name s = p.symbol) (text : List Char) : g.Matches s text ↔ p.Spells text := by
  have hnamed {p : Part} (hname : g.name s = p.symbol)
      (hx : ∃ x ∈ statements, x.lexicalName? = some p.symbol) :
      g.Matches s text ↔ text ∈ lexicalLanguage statements p.symbol :=
    hname ▸ h.matches_iff_of_name (hunique s hs) (hname ▸ hx) text
  rcases List.mem_append.mp hp with hp | hp
  · simp only [List.mem_cons, List.not_mem_nil, or_false] at hp
    rcases hp with rfl | rfl | rfl
    · exact (hnamed hname (by decide)).trans mem_number_iff
    · exact (hnamed hname (by decide)).trans mem_name_iff
    · exact (hnamed hname (by decide)).trans mem_blanks_iff
  · obtain ⟨c, hc, rfl⟩ := List.mem_map.mp hp
    have hwritten : (marks.all fun c => decide
        ((Terminal.literal [c]).spelling = (Part.mark c).symbol ∧
          Element.decode (Part.mark c).symbol = .ok (.terminal (.literal [c])) ∧
          ∃ x ∈ statements, (Part.mark c).symbol ∈ x.elements)) = true := by
      decide
    obtain ⟨hspelling, hdecode, hx⟩ := of_decide_eq_true (List.all_eq_true.mp hwritten c hc)
    exact h.matches_iff_of_spelling hunique hs hx hdecode (hspelling.trans hname.symm) text

theorem conforms_of_check (h : Lowered statements g o d) (hcheck : check g = true) :
    Conforms g := by
  simp only [check, Bool.and_eq_true, beq_iff_eq, List.all_eq_true, List.mem_range] at hcheck
  obtain ⟨⟨⟨⟨hlongest, hstart⟩, hdiscards⟩, hrules⟩, hsymbols⟩ := hcheck
  have hchecked {s : SymbolId} {kind : SymbolKind} (hs : g.kind? s = some kind) :
      checkSymbol g s = true := by
    obtain ⟨symbol, hsymbol, -⟩ := Option.map_eq_some_iff.mp hs
    exact hsymbols s (Array.getElem?_eq_some_iff.mp hsymbol).1
  have hnonterminal (s : SymbolId) (hs : g.kind? s = some .nonterminal) :
      g.findSymbol? (g.name s) = some s ∧ g.name s ∈ Part.ruled.map Part.symbol := by
    simpa only [checkSymbol, hs, Bool.and_eq_true, beq_iff_eq, List.contains_iff_mem]
      using hchecked hs
  have hlexeme (s : SymbolId) (hs : g.kind? s = some .lexeme) :
      g.findSymbol? (g.name s) = some s ∧ g.name s ∈ Part.lexemes.map Part.symbol := by
    simpa only [checkSymbol, hs, Bool.and_eq_true, beq_iff_eq, List.contains_iff_mem]
      using hchecked hs
  have hfound {s : SymbolId} (hs : IsStructural g s) : g.findSymbol? (g.name s) = some s :=
    hs.elim (fun hs => (hnonterminal s hs).1) fun hs => (hlexeme s hs).1
  refine ⟨h.coherent, hlongest, hstart, hdiscards, hrules, fun s hs => ?_, fun s hs => ?_,
    fun s s' hs hs' heq => ?_⟩
  · obtain ⟨p, hp, hname⟩ := List.mem_map.mp (hnonterminal s hs).2
    exact ⟨p, hp, hname.symm⟩
  · obtain ⟨p, hp, hname⟩ := List.mem_map.mp (hlexeme s hs).2
    exact ⟨p, hp, hname.symm,
      spells_of_lexeme h (fun s hs => (hlexeme s hs).1) hs hp hname.symm⟩
  · exact Option.some_inj.mp ((hfound hs).symm.trans (heq ▸ hfound hs'))

end

/-- The grammar of the statements conforms. -/
theorem exists_conforms_statements :
    ∃ g, Definition.compile ⟨statements, description⟩ = .ok g ∧ Conforms g := by
  obtain ⟨g, hg, hcheck⟩ := exists_eq_ok_of_any check_statements
  refine ⟨g, hg, ?_⟩
  obtain ⟨o, d, hlowered⟩ := Lowered.exists_of_ofStatements (Grammar.ofStatements_of_compile hg)
  exact conforms_of_check hlowered hcheck

end Scannerless.Calculator
