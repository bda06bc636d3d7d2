import Scannerless.Definition

/-!
# The grammar of grammar texts

Grammars are written in a notation that has a grammar itself. Statements follow
each other without a mark between them; blanks and comments may stand between
all tokens.

## Main definitions

- `GrammarText.statements` — the statements of the notation's grammar.
- `GrammarText.grammar` — the grammar that they define.
-/

namespace Scannerless.GrammarText

/-- A sequence of an item with an action, and with a mark between its items if
    one is given. -/
def sequenceOf (item : String) (separator : Option String) (action : String) : Alternative :=
  let alt := (Alternative.ofItems [item]).withAdverb "action" action
  match separator with
  | some mark => (alt.withAdverb "separator" mark).withAdverb "proper" "1"
  | none => alt

def statementRules : List Statement :=
  [.alternative "statements" (sequenceOf "statement*" none "statements"),
    .ruleAction "statement" ["':start'", "'::='", "symbol"] "start",
    .ruleAction "statement" ["':default'", "'::='", "adverbs"] "default",
    .ruleAction "statement" ["':discard'", "'~'", "element"] "discard",
    .ruleAction "statement" ["'lexeme'", "'default'", "'='", "adverbs"] "lexeme_default",
    .ruleAction "statement" ["symbol", "'::='", "tiers"] "structural",
    .ruleAction "statement" ["symbol", "'~'", "alternatives"] "lexical"]

def rightSideRules : List Statement :=
  [.alternative "tiers" (sequenceOf "alternatives+" (some "'||'") "tiers"),
    .alternative "alternatives" (sequenceOf "alternative+" (some "'|'") "alternatives"),
    .ruleAction "alternative" ["rhs", "adverbs"] "alternative",
    .alternative "rhs" (sequenceOf "rhs_item*" none "rhs"),
    .ruleAction "rhs_item" ["element"] "item",
    .ruleAction "rhs_item" ["element", "quantifier"] "quantified",
    .ruleAction "element" ["symbol"] "::first",
    .ruleAction "element" ["literal"] "spelled",
    .ruleAction "element" ["char_class"] "spelled",
    .ruleAction "symbol" ["bare_name"] "spelled",
    .ruleAction "symbol" ["bracketed_name"] "spelled"]

def adverbRules : List Statement :=
  [.alternative "adverbs" (sequenceOf "adverb*" none "adverbs"),
    .ruleAction "adverb" ["bare_name", "'=>'", "adverb_value"] "adverb",
    .rule "adverb_value" ["bare_name"],
    .rule "adverb_value" ["bracketed_name"],
    .rule "adverb_value" ["builtin_action"],
    .rule "adverb_value" ["integer"],
    .rule "adverb_value" ["literal"],
    .rule "adverb_value" ["char_class"]]

/-- The tokens of the notation. A literal ends at the quote it begins with, and
    none of literals, classes and names goes over a line. -/
def tokenRules : List Statement :=
  [.lexeme "bare_name" ["[a-zA-Z_]", "[a-zA-Z0-9_]*"],
    .lexeme "bracketed_name" ["'<'", "[^>\\n]+", "'>'"],
    .lexeme "builtin_action" ["'::'", "[a-z]+"],
    .lexeme "integer" ["[-]?", "[0-9]+"],
    .lexeme "literal" ["[']", "single_quoted*", "[']"],
    .lexeme "literal" ["[\"]", "double_quoted*", "[\"]"],
    .lexeme "single_quoted" ["[^'\\\\\\n]"],
    .lexeme "single_quoted" ["[\\\\]", "[^\\n]"],
    .lexeme "double_quoted" ["[^\"\\\\\\n]"],
    .lexeme "double_quoted" ["[\\\\]", "[^\\n]"],
    .lexeme "char_class" ["'['", "class_char+", "']'"],
    .lexeme "class_char" ["[^\\]\\\\\\n]"],
    .lexeme "class_char" ["[\\\\]", "[^\\n]"],
    .lexeme "quantifier" ["[*+?]"]]

/-- What may stand between tokens, and that the longest token counts. -/
def layoutRules : List Statement :=
  [.lexeme "whitespace" ["[\\s]+"],
    .lexeme "comment" ["'#'", "[^\\n]*"],
    .discarded "whitespace",
    .discarded "comment",
    .longestMatch true]

def statements : List Statement :=
  statementRules ++ rightSideRules ++ adverbRules ++ tokenRules ++ layoutRules

/-- The grammar of the notation. -/
def grammar : Except CompileError Grammar :=
  Definition.compile ⟨statements, "SLIF meta grammar"⟩

end Scannerless.GrammarText
