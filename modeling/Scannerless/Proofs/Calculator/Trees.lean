import Scannerless.Proofs.Calculator.Actions
import Scannerless.Proofs.Calculator.Descent
import Scannerless.Proofs.Calculator.Layout

/-!
# Trees of expressions

Every tree of the grammar over lexemes that cover a text builds an expression that is well shaped,
and its tokens lie in the text. A text has one list of tokens, and a list of tokens has one such
expression, from which the tree can be told: a text has at most one tree. The tokens of a well
shaped expression are derived, so that a text in which they lie is recognized.

## Main definitions

- `Grammar.HasTree` — a tree over lexemes that cover an input.
- `Calculator.read?` — the expression of a text by recursive descent over its longest tokens.
- `Calculator.Means` — what a symbol builds out of words.
- `Calculator.Derivable` — the symbols of a part derive lexemes for some tokens.

## Main statements

- `Calculator.Conforms.explains` — trees build expressions.
- `Calculator.Conforms.distinguishes` — expressions tell their trees.
- `Calculator.Conforms.read?_of_hasTree` — a tree builds the expression that is read.
- `Calculator.Conforms.tree_unique` — a text has at most one tree.
- `Calculator.Conforms.failure?_eq_none` — a text that can be read is recognized.
-/

namespace Scannerless

open Text GrammarText Recognition

/-- A tree of the start symbol over lexemes that cover an input, whether they are the longest ones
    or not. -/
def Grammar.HasTree (g : Grammar) (input : Indexed) (tree : Tree) : Prop :=
  ∃ p, g.structural.Reads (g.lexemeLattice input) [g.start] 0 p [tree] ∧
    input.size ≤ g.skipEnd input p

namespace Calculator

/-! ### Reading by hand -/

theorem Operator.mark_mem (op : Operator) : op.mark ∈ marks := by
  cases op <;> decide

/-- The tokens of a well shaped expression have the texts of their kinds. -/
theorem Expr.Shaped.proper {e : Expr} (h : e.Shaped) : ∀ t ∈ e.tokens, t.Proper := by
  have henclosed {ts : List Token} (hts : ∀ t ∈ ts, t.Proper) :
      ∀ t ∈ Token.mark '(' :: ts ++ [.mark ')'], t.Proper := by
    have hopen : (Token.mark '(').Proper := List.mem_cons_self
    have hclose : (Token.mark ')').Proper := List.mem_cons_of_mem _ List.mem_cons_self
    exact List.forall_mem_append.mpr
      ⟨List.forall_mem_cons.mpr ⟨hopen, hts⟩, List.forall_mem_singleton.mpr hclose⟩
  induction e with
  | number text => exact List.forall_mem_singleton.mpr h
  | group e ih => exact henclosed (ih h)
  | call name e ih => exact List.forall_mem_cons.mpr ⟨h.1, henclosed (ih h.2)⟩
  | negate e ih => exact List.forall_mem_cons.mpr ⟨Operator.minus.mark_mem, ih h.1⟩
  | binary op a b iha ihb =>
    exact List.forall_mem_append.mpr
      ⟨iha h.1.1, List.forall_mem_cons.mpr ⟨op.mark_mem, ihb h.2.1⟩⟩

/-- The expression of a text: its longest tokens are parsed by recursive descent. -/
def read? (cs : List Char) : Option Expr :=
  (tokens? cs).bind parseTokens

/-- A text is read if and only if the tokens of a well shaped expression lie in it, and this is the
    one that is read. -/
theorem read?_eq_some_iff {cs : List Char} {e : Expr} :
    read? cs = some e ↔ e.Shaped ∧ Lays e.tokens cs := by
  rw [read?, Option.bind_eq_some_iff]
  constructor
  · rintro ⟨ts, hts, he⟩
    have hlays := tokens?_eq_some_iff.mp hts
    obtain ⟨hshaped, rfl⟩ := (parseTokens_eq_some_iff hlays.proper).mp he
    exact ⟨hshaped, hlays⟩
  · rintro ⟨hshaped, hlays⟩
    exact ⟨e.tokens, tokens?_eq_some_iff.mpr hlays,
      (parseTokens_eq_some_iff hlays.proper).mpr ⟨hshaped, rfl⟩⟩

/-! ### Meanings -/

/-- What a symbol builds out of words is what its part does. -/
def Means (g : Grammar) (s : SymbolId) (values : List Syntax) (words : List String) : Prop :=
  ∃ p ∈ Part.all, g.name s = p.symbol ∧ p.Means values words

/-- The parts of the symbols on a right side mean what the symbols do. -/
theorem meansAll_of_means {g : Grammar} {ss : List SymbolId} {rhs : List Part}
    {parts : List (Portion Syntax)} (hrhs : ∀ q ∈ rhs, q ∈ Part.all)
    (hnames : ss.map g.name = rhs.map Part.symbol)
    (h : List.Forall₂ (fun s part => Means g s part.values part.words) ss parts) :
    MeansAll rhs parts := by
  induction h generalizing rhs with
  | nil =>
    rw [List.map_nil, eq_comm, List.map_eq_nil_iff] at hnames
    exact hnames ▸ .nil
  | cons hs _ ih =>
    cases rhs with
    | nil => cases hnames
    | cons q rhs =>
      rw [List.forall_mem_cons] at hrhs
      obtain ⟨hname, hrest⟩ := List.cons.inj hnames
      obtain ⟨p, hp, hname', hmeans⟩ := hs
      obtain rfl := Part.symbol_injective p hp q hrhs.1 (hname'.symm.trans hname)
      exact .cons hmeans (ih hrhs.2 hrest)

/-- An expression that was handed on is the only value. -/
theorem Makes.eq_singleton {values : List Syntax} {e : Expr} (h : Makes .splice values e) :
    values = [.expr e] := by
  cases h
  rfl

/-- A rule hands up the expression that is made of its values. -/
theorem outcome_eq {r : Recognition} {rule : Rule} {values : List Syntax} {e : Expr}
    (h : Makes rule.semantics values e) (start stop : Nat) :
    r.outcome building rule start stop values = .ok [.expr e] := by
  rw [outcome]
  cases hsplice : rule.isSplice with
  | true =>
    rw [eq_of_beq hsplice] at h
    rw [if_pos rfl, h.eq_singleton]
  | false =>
    have hvalue := realizes_building.applyRule_eq (c := ⟨r.grammar, r.input, rule, start, stop⟩) h
      hsplice
    rw [List.map_id] at hvalue
    rw [if_neg Bool.false_ne_true, hvalue]
    rfl

theorem row_eq_iff {g : Grammar} {rule : Rule} {p : Production} :
    row g rule = p.row ↔ g.name rule.lhs = p.lhs.symbol ∧
      rule.rhs.map g.name = p.rhs.map Part.symbol ∧ rule.semantics = p.semantics ∧
      rule.mask = p.rhs.map fun _ => true := by
  simp only [row, Production.row, Prod.mk.injEq]

namespace Conforms

variable {g : Grammar} {r : Recognition} {l : Lattice} {id : RuleId} {rule : Rule}

theorem mask_eq (h : Conforms g) (hrule : g.structural.rule? id = some rule) :
    rule.mask = rule.rhs.map fun _ => true := by
  obtain ⟨p, -, hrow⟩ := h.exists_production hrule
  obtain ⟨-, hrhs, -, hmask⟩ := row_eq_iff.mp hrow
  have hlength := congrArg List.length hrhs
  rw [List.length_map, List.length_map] at hlength
  rw [hmask, List.map_const', List.map_const', hlength]

/-- A rule makes an expression of what the symbols on its right side mean. -/
theorem exists_yields (h : Conforms g) (hrule : g.structural.rule? id = some rule)
    {parts : List (Portion Syntax)}
    (hparts : List.Forall₂ (fun s part => Means g s part.values part.words) rule.rhs parts) :
    ∃ p ∈ Calculator.productions, row g rule = p.row ∧ ∃ e, Yields p parts e := by
  obtain ⟨p, hp, hrow⟩ := h.exists_production hrule
  exact ⟨p, hp, hrow, Calculator.exists_yields hp
    (meansAll_of_means (fun q hq => mem_all p hp q (List.mem_cons_of_mem _ hq))
      (row_eq_iff.mp hrow).2.1 hparts)⟩

/-- Trees over lexemes build expressions. -/
theorem explains (h : Conforms r.grammar) (hl : ∀ i s j, l.token i s j →
    r.grammar.isLexeme s = true ∧ r.grammar.Covers r.input s (l.start i) j) :
    r.Explains l building (Means r.grammar) where
  token i s j _ hj := by
    obtain ⟨hlexeme, hcovers⟩ := hl i s j hj
    obtain ⟨p, hp, hname, hspells⟩ := h.lexeme s (Grammar.isLexeme_iff.mp hlexeme)
    refine ⟨p, List.mem_append_right _ hp, hname, ?_⟩
    have hword := (hspells _).mp hcovers.matches_between
    cases p with
    | tier level => exact hword.elim
    | _ => exact ⟨_, rfl, hword, rfl⟩
  rule id rule hrule parts hparts := by
    obtain ⟨p, hp, hrow, e, hmakes, hmeans, -⟩ := h.exists_yields hrule hparts
    obtain ⟨hlhs, -, hsemantics, -⟩ := row_eq_iff.mp hrow
    rw [← hsemantics] at hmakes
    rw [h.mask_eq hrule, kept_of_all hparts.length_eq]
    have hmeans : Means r.grammar rule.lhs [.expr e] (parts.flatMap Portion.words) :=
      ⟨p.lhs, mem_all p hp p.lhs List.mem_cons_self, hlhs, hmeans⟩
    cases hsplice : rule.isSplice with
    | true =>
      rw [eq_of_beq hsplice] at hmakes
      rw [if_pos rfl, hmakes.eq_singleton]
      exact hmeans
    | false =>
      rw [if_neg Bool.false_ne_true]
      intro start stop
      refine ⟨.expr e, ?_, hmeans⟩
      have hvalue := realizes_building.applyRule_eq (c := ⟨r.grammar, r.input, rule, start, stop⟩)
        hmakes hsplice
      rwa [List.map_id] at hvalue

/-- Expressions tell their trees. -/
theorem distinguishes (h : Conforms r.grammar) :
    r.Distinguishes (r.grammar.lexemeLattice r.input) building (Means r.grammar) where
  one s values words hmeans := by
    obtain ⟨p, -, -, hmeans⟩ := hmeans
    cases p with
    | tier level =>
      obtain ⟨e, rfl, -⟩ := hmeans
      exact ⟨_, rfl⟩
    | _ =>
      obtain ⟨w, rfl, -⟩ := hmeans
      exact ⟨_, rfl⟩
  mask id rule hrule := h.mask_eq hrule
  token i s j j' hj hj' hsame := by
    have hword : r.input.between (r.grammar.skipEnd r.input i) j =
        r.input.between (r.grammar.skipEnd r.input i) j' := Syntax.word.inj hsame
    rw [hj.2.2.eq_add, hj'.2.2.eq_add, hword]
  rule id rule hrule id' rule' hrule' hlhs parts parts' hparts hparts' start stop start' stop'
      values hout hout' := by
    obtain ⟨p, hp, hrow, e, hmakes, -, hsplice⟩ := h.exists_yields hrule hparts
    obtain ⟨p', hp', hrow', e', hmakes', -, hsplice'⟩ := h.exists_yields hrule' hparts'
    obtain ⟨hname, -, hsemantics, -⟩ := row_eq_iff.mp hrow
    obtain ⟨hname', -, hsemantics', -⟩ := row_eq_iff.mp hrow'
    rw [outcome_eq (hsemantics ▸ hmakes)] at hout
    rw [outcome_eq (hsemantics' ▸ hmakes')] at hout'
    obtain rfl : e = e' := by
      have hsame := (Except.ok.inj hout).trans (Except.ok.inj hout').symm
      exact Syntax.expr.inj (List.singleton_inj.mp hsame)
    have hlhs' : p.lhs = p'.lhs :=
      Part.symbol_injective _ (mem_all p hp _ List.mem_cons_self) _
        (mem_all p' hp' _ List.mem_cons_self) (hname.symm.trans (hlhs ▸ hname'))
    obtain ⟨hsame, hvalues⟩ := hmakes.unique hmakes' (by rw [hsplice, hsplice', hlhs'])
    obtain rfl := eq_of_semantics p hp p' hp' hlhs' hsame
    exact ⟨h.eq_of_production hrule hrule' (hrow.trans hrow'.symm), hvalues⟩

/-- The tree of a text builds the expression that is read. -/
theorem read?_of_hasTree (h : Conforms r.grammar) {tree : Tree}
    (htree : r.grammar.HasTree r.input tree) :
    ∃ e, read? r.input.chars = some e ∧ (tree.arguments r building).Gives [.expr e] := by
  obtain ⟨p, hreads, hend⟩ := htree
  have hexplains := h.explains (l := r.grammar.lexemeLattice r.input) fun _ _ _ hj => hj.2
  obtain ⟨⟨values, words⟩, ⟨q, hq, hname, hmeans⟩, hwords, hgives⟩ :=
    hexplains.reads h.coherent.structural hreads
  obtain rfl : q = .tier 5 :=
    Part.symbol_injective q hq (.tier 5) (by decide) (hname.symm.trans h.start)
  obtain ⟨e, rfl, hshaped, -, rfl⟩ := hmeans
  have hchars : r.input.chars = [] ++ r.input.chars := rfl
  exact ⟨e, read?_eq_some_iff.mpr
    ⟨hshaped, h.lays_of_words hshaped.proper e.apart_tokens hchars hwords hend⟩, hgives⟩

/-- A text has at most one tree. -/
theorem tree_unique (h : Conforms r.grammar) {tree tree' : Tree}
    (htree : r.grammar.HasTree r.input tree) (htree' : r.grammar.HasTree r.input tree') :
    tree = tree' := by
  obtain ⟨e, hread, hgives⟩ := h.read?_of_hasTree htree
  obtain ⟨e', hread', hgives'⟩ := h.read?_of_hasTree htree'
  obtain rfl := Option.some_inj.mp (hread.symm.trans hread')
  obtain ⟨p, hreads, -⟩ := htree
  obtain ⟨p', hreads', -⟩ := htree'
  exact h.distinguishes.eq_of_gives (h.explains fun _ _ _ hj => hj.2) h.coherent.structural hreads
    hreads' hgives hgives'

end Conforms

/-! ### Tokens are derived -/

/-- A lexeme matches the text of a token. -/
def Fills (g : Grammar) (a : SymbolId) (t : Token) : Prop :=
  g.isLexeme a = true ∧ g.Matches a t.text.toList

/-- The symbols of a part derive lexemes for some tokens. -/
def Derivable (g : Grammar) (p : Part) (ts : List Token) : Prop :=
  ∀ s, IsStructural g s → g.name s = p.symbol → g.structural.DerivesFor (Fills g) [s] ts

namespace Conforms

variable {g : Grammar} {id : RuleId} {rule : Rule}

/-- A production derives what the parts on its right side derive. -/
theorem derivable_of_production (h : Conforms g) {p : Production}
    (hp : p ∈ Calculator.productions) {tss : List (List Token)}
    (htss : List.Forall₂ (Derivable g) p.rhs tss) : Derivable g p.lhs tss.flatten := by
  intro s hs hname
  obtain ⟨id, rule, hrule, hrow⟩ := h.exists_rule hp
  obtain ⟨hlhs, hrhs, -⟩ := row_eq_iff.mp hrow
  obtain rfl := h.unique s rule.lhs hs (isStructural_lhs h.coherent hrule) (hname.trans hlhs.symm)
  -- The parts on the right side are told by the names of the symbols there.
  have hnamed : List.Forall₂ (fun name ts => ∀ s, IsStructural g s → g.name s = name →
      g.structural.DerivesFor (Fills g) [s] ts) (rule.rhs.map g.name) tss :=
    hrhs ▸ List.forall₂_map_left_iff.mpr htss
  exact derivesFor_of_rule h.coherent hrule
    ((List.forall₂_map_left_iff.mp hnamed).imp fun s _ hs hstructural => hs s hstructural rfl)

/-- A lexeme derives the tokens with a text of its part. -/
theorem derivable_token (h : Conforms g) {p : Part} (hp : p ∈ Part.lexemes) {t : Token}
    (ht : p.Spells t.text.toList) : Derivable g p [t] := by
  intro s hs hname
  rcases hs with hs | hs
  · -- No part with rules has the name of a lexeme.
    obtain ⟨q, hq, hname'⟩ := h.ruled s hs
    have hnone : ∀ q ∈ Part.ruled, q ∉ Part.lexemes := by
      decide
    obtain rfl := Part.symbol_injective q (List.mem_append_left _ hq) p
      (List.mem_append_right _ hp) (hname'.symm.trans hname)
    exact absurd hp (hnone q hq)
  · obtain ⟨q, hq, hname', hspells⟩ := h.lexeme s hs
    obtain rfl := Part.symbol_injective q (List.mem_append_right _ hq) p
      (List.mem_append_right _ hp) (hname'.symm.trans hname)
    exact RuleTable.derivesFor_self ⟨Grammar.isLexeme_iff.mpr hs, (hspells _).mpr ht⟩

theorem derivable_mark (h : Conforms g) {c : Char} (hc : c ∈ marks) :
    Derivable g (.mark c) [.mark c] :=
  h.derivable_token (List.mem_append_right _ (List.mem_map_of_mem hc)) String.toList_ofList

/-- A level derives what the tighter ones derive. -/
theorem derivable_tier (h : Conforms g) {ts : List Token} {level level' : Nat}
    (hts : Derivable g (.tier level) ts) (hle : level ≤ level') (hlevel : level' ≤ 5) :
    Derivable g (.tier level') ts := by
  induction hle with
  | refl => exact hts
  | @step level' _ ih =>
    have hp : ∀ level < 5, ascent level ∈ Calculator.productions := by
      decide
    have hone := h.derivable_of_production (hp level' (by omega)) (.cons (ih (by omega)) .nil)
    rwa [List.flatten_singleton] at hone

/-- The tokens of a well shaped expression are derived. -/
theorem derivable_expr (h : Conforms g) {e : Expr} (he : e.Shaped) :
    Derivable g (.tier e.level) e.tokens := by
  have hmark {c : Char} (hc : c ∈ marks) := h.derivable_mark hc
  have hwhole {e : Expr} (hts : Derivable g (.tier e.level) e.tokens) :
      Derivable g (.tier 5) e.tokens :=
    h.derivable_tier hts (e.level_le_four.trans (by decide)) (by decide)
  induction e with
  | number text =>
    have hp : production 0 [.number] "num" ∈ Calculator.productions := by
      decide
    have hnumber : Derivable g .number [.number text] := h.derivable_token (by decide) he
    exact h.derivable_of_production hp (.cons hnumber .nil)
  | group e ih =>
    have hp : production 0 [.mark '(', .tier 5, .mark ')'] "parens" ∈ Calculator.productions := by
      decide
    exact h.derivable_of_production hp <| .cons (hmark (by decide)) <|
      .cons (hwhole (ih he)) <| .cons (hmark (by decide)) .nil
  | call name e ih =>
    have hp : production 0 [.name, .mark '(', .tier 5, .mark ')'] "call" ∈
        Calculator.productions := by
      decide
    have hname : Derivable g .name [.name name] := h.derivable_token (by decide) he.1
    exact h.derivable_of_production hp <| .cons hname <| .cons (hmark (by decide)) <|
      .cons (hwhole (ih he.2)) <| .cons (hmark (by decide)) .nil
  | negate e ih =>
    have hp : production 2 [.mark '-', .tier 2] "neg" ∈ Calculator.productions := by
      decide
    have hwords := h.derivable_of_production hp <| .cons (hmark (by decide)) <|
      .cons (h.derivable_tier (ih he.1) he.2 (by decide)) .nil
    simpa [Expr.tokens, Expr.level, production] using hwords
  | binary op a b iha ihb =>
    obtain ⟨⟨ha, hleft⟩, hb, hright⟩ := he
    have hp : infixed op ∈ Calculator.productions ∧ op.left ≤ 5 ∧ op.right ≤ 5 := by
      cases op <;> decide
    have hwords := h.derivable_of_production hp.1 <|
      .cons (h.derivable_tier (iha ha) hleft hp.2.1) <| .cons (hmark op.mark_mem) <|
      .cons (h.derivable_tier (ihb hb) hright hp.2.2) .nil
    simpa [Expr.tokens, Expr.level, production, infixed] using hwords

/-- A text that can be read is recognized. -/
theorem failure?_eq_none {r : Recognition} (h : Conforms r.grammar) (hr : r.Ended) {e : Expr}
    (he : read? r.input.chars = some e) : r.failure? = none := by
  obtain ⟨hshaped, hlays⟩ := read?_eq_some_iff.mp he
  have hwhole := h.derivable_tier (h.derivable_expr hshaped) (e.level_le_four.trans (by decide))
    (Nat.le_refl 5)
  obtain ⟨as, hderives, has⟩ := hwhole r.grammar.start (Or.inl h.coherent.start) h.start
  have hchars : r.input.chars = [] ++ r.input.chars := rfl
  obtain ⟨p, hchain, hend⟩ := h.exists_chain hlays has hchars
  exact (hr.reads_longest h.longestMatch hderives hchain hend).1

end Conforms

end Calculator

end Scannerless
