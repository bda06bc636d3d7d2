import Scannerless.Proofs.Calculator.Grammar
import Scannerless.Proofs.Calculator.Munch
import Scannerless.Proofs.GrammarText.Layout

/-!
# Tokens between blanks

The grammar of expressions discards blanks, and its other lexemes are tokens. If one of two tokens
that follow one another is always a mark, as in an expression, then a token ends where no longer one
could go on. So the words of an expression are the longest tokens of the text, whichever lexemes
they were read as, and the longest lexemes of a text are its longest tokens.

## Main definitions

- `Calculator.Token.StopsAt` — a token cannot go on into a text.

## Main statements

- `Calculator.Expr.apart_tokens` — of two tokens in an expression one is a mark.
- `Calculator.Conforms.skipEnd_eq` — blanks are skipped.
- `Calculator.Conforms.lays_of_words` — what an expression is read from lays out its tokens.
- `Calculator.Conforms.exists_chain` — longest tokens are longest lexemes.
-/

namespace Scannerless.Calculator

open Text GrammarText

/-! ### Where tokens stop -/

/-- A token cannot go on into the text behind it. -/
def Token.StopsAt : Token → List Char → Prop
  | number _, rest => ∀ c ∈ rest.head?, ¬(c.isDigit = true ∨ c = '.')
  | name _, rest => ∀ c ∈ rest.head?, ¬isNameChar c = true
  | mark _, _ => True

theorem forall_mem_numberText (cs : List Char) :
    ∀ c ∈ numberText cs, c.isDigit = true ∨ c = '.' := by
  intro c hc
  rcases numberText_cases cs with h | ⟨rest, -, -, h⟩
  · rw [h] at hc
    exact Or.inl (List.mem_takeWhile_imp hc)
  · rw [h, List.mem_append, List.mem_cons] at hc
    rcases hc with hc | hc | hc
    · exact Or.inl (List.mem_takeWhile_imp hc)
    · exact Or.inr hc
    · exact Or.inl (List.mem_takeWhile_imp hc)

theorem IsNumber.numberText_append {text rest : List Char} (h : IsNumber text)
    (hstop : ∀ c ∈ rest.head?, ¬(c.isDigit = true ∨ c = '.')) :
    numberText (text ++ rest) = text := by
  obtain ⟨more, hmore⟩ := numberText_isPrefix (text ++ rest)
  have hback := prefix_of_forall hmore.symm (forall_mem_numberText _) hstop
  exact hback.eq_of_length_le (h.prefix_numberText rest).length_le

theorem takeWhile_append_of_stop {p : Char → Bool} {text rest : List Char}
    (h : ∀ c ∈ text, p c = true) (hstop : ∀ c ∈ rest.head?, ¬p c = true) :
    (text ++ rest).takeWhile p = text := by
  rw [List.takeWhile_append_of_pos h]
  cases rest with
  | nil => exact List.append_nil text
  | cons c rest => rw [List.takeWhile_cons_of_neg (hstop c rfl), List.append_nil]

/-- A token that stops is the longest one at its place. -/
theorem Token.Proper.longest {t : Token} (h : t.Proper) {rest : List Char}
    (hstop : t.StopsAt rest) : t.Longest rest := by
  have hfront : front? (t.text.toList ++ rest) = some t := by
    obtain ⟨c, cs, hc, ⟨hdigit, hnumber, rfl⟩ | ⟨hchar, hname, rfl⟩ | ⟨hmark, rfl, rfl⟩⟩ :=
      h.exists_cons
    all_goals rw [hc, List.cons_append]
    · rw [front?_number hdigit, ← List.cons_append, hnumber.numberText_append hstop]
    · rw [front?_name hchar, ← List.cons_append, takeWhile_append_of_stop hname.2 hstop]
    · exact front?_mark hmark rest
  obtain ⟨rest', hrest, hlongest⟩ := front?_eq_some_iff.mp hfront
  rwa [← List.append_cancel_left hrest] at hlongest

/-- A token is a mark. -/
def Token.IsMark (t : Token) : Prop :=
  ∃ c, t = mark c

theorem isMark (c : Char) : (Token.mark c).IsMark :=
  ⟨c, rfl⟩

/-- Of two tokens that follow one another one is a mark. -/
abbrev Apart (ts : List Token) : Prop :=
  ts.IsChain fun t u => t.IsMark ∨ u.IsMark

theorem apart_mark (c : Char) {ts : List Token} (h : Apart ts) : Apart (.mark c :: ts) :=
  List.isChain_cons.mpr ⟨fun _ _ => Or.inl (isMark c), h⟩

theorem apart_enclosed {ts : List Token} (h : Apart ts) :
    Apart (.mark '(' :: ts ++ [.mark ')']) :=
  List.isChain_append.mpr ⟨apart_mark '(' h, .singleton _,
    fun _ _ _ hu => Or.inr ⟨')', (Option.some_inj.mp hu).symm⟩⟩

/-- Of two tokens that follow one another in an expression one is a mark. -/
theorem Expr.apart_tokens (e : Expr) : Apart e.tokens := by
  induction e with
  | number text => exact .singleton _
  | group e ih => exact apart_enclosed ih
  | call name e ih =>
    exact List.isChain_cons.mpr
      ⟨fun _ hu => Or.inr ⟨'(', (Option.some_inj.mp hu).symm⟩, apart_enclosed ih⟩
  | negate e ih => exact apart_mark '-' ih
  | binary op a b iha ihb =>
    exact List.isChain_append.mpr ⟨iha, apart_mark op.mark ihb,
      fun t _ u hu => Or.inr ⟨op.mark, (Option.some_inj.mp hu).symm⟩⟩

/-- A laid out text begins with a blank or with the first token. -/
theorem Lays.head?_cases {ts : List Token} {cs : List Char} (h : Lays ts cs) :
    ∀ c ∈ cs.head?, isBlank c = true ∨
      ∃ t ∈ ts.head?, t.Proper ∧ t.text.toList.head? = some c := by
  intro c hc
  cases h with
  | nil hgap => exact Or.inl (hgap c (List.mem_of_head? hc))
  | @cons t ts gap rest hgap ht h =>
    cases gap with
    | nil =>
      obtain ⟨d, ds, hd, -⟩ := ht.1.exists_cons
      rw [List.nil_append, hd] at hc
      exact Or.inr ⟨t, rfl, ht.1, by rw [hd]; exact hc⟩
    | cons d gap =>
      obtain rfl := Option.some_inj.mp hc
      exact Or.inl (hgap d List.mem_cons_self)

/-- A token stops in front of blanks, and where one of the two tokens is a mark. -/
theorem Lays.stopsAt {t : Token} {ts : List Token} {rest : List Char} (h : Lays ts rest)
    (hapart : ∀ u ∈ ts.head?, t.IsMark ∨ u.IsMark) : t.StopsAt rest := by
  -- What is behind a token that is no mark is a blank or a mark.
  have hhead (hmark : ¬t.IsMark) : ∀ c ∈ rest.head?, isBlank c = true ∨ c ∈ marks := by
    intro c hc
    refine (h.head?_cases c hc).imp_right ?_
    rintro ⟨u, hu, hproper, htext⟩
    obtain ⟨d, rfl⟩ := (hapart u hu).resolve_left hmark
    rw [Token.text, String.toList_ofList] at htext
    exact Option.some_inj.mp htext ▸ hproper
  have hkind (c : Char) (hc : isBlank c = true ∨ c ∈ marks) :
      c.isDigit = false ∧ isNameChar c = false ∧ c ≠ '.' := by
    rcases hc with hblank | hmark
    · refine ⟨?_, ?_, ?_⟩
      · exact Bool.eq_false_iff.mpr fun hdigit =>
          Bool.eq_false_iff.mp (isBlank_of_isDigit hdigit) hblank
      · exact Bool.eq_false_iff.mpr fun hchar =>
          Bool.eq_false_iff.mp (isBlank_of_isNameChar hchar) hblank
      · rintro rfl
        exact absurd hblank (by decide)
    · obtain ⟨hdigit, hchar, -, hpoint⟩ := kind_of_mem_marks hmark
      exact ⟨hdigit, hchar, hpoint⟩
  cases t with
  | number text =>
    intro c hc
    obtain ⟨hdigit, -, hpoint⟩ := hkind c (hhead (by rintro ⟨d, hd⟩; cases hd) c hc)
    exact not_or.mpr ⟨Bool.eq_false_iff.mp hdigit, hpoint⟩
  | name text =>
    intro c hc
    exact Bool.eq_false_iff.mp (hkind c (hhead (by rintro ⟨d, hd⟩; cases hd) c hc)).2.1
  | mark c => exact trivial

/-! ### Blanks and lexemes -/

namespace Conforms

variable {g : Grammar} {input : Indexed} {before gap after : List Char} {s : SymbolId}

/-- A lexeme matches the text of a token, or blanks. -/
theorem token_or_blanks (h : Conforms g) {text : List Char} (hs : g.isLexeme s = true)
    (hmatches : g.Matches s text) :
    (∃ t : Token, t.Proper ∧ t.text.toList = text) ∨ Part.blanks.Spells text := by
  obtain ⟨p, hp, -, hspells⟩ := h.lexeme s (Grammar.isLexeme_iff.mp hs)
  have htext := (hspells text).mp hmatches
  cases p with
  | tier level => exact htext.elim
  | number => exact Or.inl ⟨.number (String.ofList text), by
      rwa [Token.Proper, String.toList_ofList], String.toList_ofList⟩
  | name => exact Or.inl ⟨.name (String.ofList text), by
      rwa [Token.Proper, String.toList_ofList], String.toList_ofList⟩
  | blanks => exact Or.inr htext
  | mark c =>
    have hmark : ∀ c, Part.mark c ∈ Part.lexemes → c ∈ marks := by
      intro c hc
      simpa [Part.lexemes] using hc
    exact Or.inl ⟨.mark c, hmark c hp, String.toList_ofList.trans (Eq.symm htext)⟩

theorem discardsBlanks (h : Conforms g) : g.Discards Part.blanks.Spells := by
  obtain ⟨s, hs, hname⟩ := List.map_eq_singleton_iff.mp h.discards
  have hblanks : ∀ text, g.Matches s text ↔ Part.blanks.Spells text := by
    obtain ⟨p, hp, hname', hspells⟩ := h.lexeme s (h.coherent.discards s (by simp [hs]))
    have hsame : p = .blanks :=
      Part.symbol_injective p (List.mem_append_right _ hp) .blanks (by decide)
        (hname'.symm.trans hname)
    rwa [hsame] at hspells
  refine ⟨fun text => ?_, fun text htext => htext.1⟩
  rw [hs, ← hblanks text]
  simp

/-- Blanks are skipped up to what is no blank. -/
theorem skipEnd_eq (h : Conforms g) (hgap : ∀ c ∈ gap, isBlank c = true)
    (hafter : ∀ c ∈ after.head?, isBlank c = false)
    (hchars : input.chars = before ++ (gap ++ after)) :
    g.skipEnd input (byteLength before) = byteLength (before ++ gap) := by
  have hstops : ∀ c ∈ after.head?, ¬isBlank c = true := fun c hc =>
    Bool.eq_false_iff.mp (hafter c hc)
  have hstop : SkipsTo (g.Discarded input) (byteLength (before ++ gap))
      (byteLength (before ++ gap)) := by
    refine h.discardsBlanks.skipsTo_self (hchars.trans (List.append_assoc _ _ _).symm) ?_
    rintro text rest rfl ⟨hne, hall⟩
    obtain ⟨c, cs, rfl⟩ := List.exists_cons_of_ne_nil hne
    exact hstops c rfl (hall c List.mem_cons_self)
  refine ((Grammar.skipsTo_iff h.coherent.lexicon h.coherent.plainDiscards _ _).mp ?_).symm
  by_cases hne : gap = []
  · rwa [hne, List.append_nil] at hstop ⊢
  · refine h.discardsBlanks.skipsTo_text ⟨hne, hgap⟩ hchars (fun text rest heq htext => ?_) hstop
    exact prefix_of_forall heq htext.2 hstops

/-! ### Words and tokens -/

/-- A text begins with blanks that end before what is no blank. -/
theorem exists_gap (cs : List Char) : ∃ gap rest, cs = gap ++ rest ∧
    (∀ c ∈ gap, isBlank c = true) ∧ ∀ c ∈ rest.head?, isBlank c = false := by
  refine ⟨cs.takeWhile isBlank, cs.dropWhile isBlank, List.takeWhile_append_dropWhile.symm,
    fun c hc => List.mem_takeWhile_imp hc, fun c hc => ?_⟩
  have hhead := List.head?_dropWhile_not isBlank cs
  rw [hc] at hhead
  exact hhead

/-- What an expression is read from lays out its tokens. -/
theorem lays_of_words (h : Conforms g) {ts : List Token} (hproper : ∀ t ∈ ts, t.Proper)
    (hapart : Apart ts) {p : Nat} (hchars : input.chars = before ++ after)
    (hwords : (g.lexemeLattice input).Words input (ts.map Token.text) (byteLength before) p)
    (hend : input.size ≤ g.skipEnd input p) : Lays ts after := by
  obtain ⟨gap, rest, rfl, hgap, hrest⟩ := exists_gap after
  have hskip := h.skipEnd_eq hgap hrest hchars
  induction ts generalizing before gap rest with
  | nil =>
    cases hwords
    -- Behind the last token there is nothing but blanks.
    rw [hskip, input.size_eq, hchars, ← List.append_assoc, byteLength_append] at hend
    have hnone : rest = [] := Grammar.byteLength_eq_zero_iff.mp (by omega)
    rw [hnone, List.append_nil]
    exact .nil hgap
  | cons t ts ih =>
    obtain ⟨s, k, ⟨-, -, hcovers⟩, htext, hwords⟩ := hwords.cons_inv
    have hplace : input.chars = (before ++ gap) ++ rest :=
      hchars.trans (List.append_assoc _ _ _).symm
    rw [hskip, Grammar.covers_iff hplace] at hcovers
    obtain ⟨text, rest', rfl, rfl, -⟩ := hcovers
    have htoken : t.text.toList = text := by
      have hbetween : t.text = input.between (g.skipEnd input (byteLength before))
          (byteLength (before ++ gap ++ text)) := htext
      rw [hbetween, hskip, Indexed.between_append hplace, String.toList_ofList]
    subst htoken
    rw [List.forall_mem_cons] at hproper
    obtain ⟨hfirst, hapart⟩ := List.isChain_cons.mp hapart
    obtain ⟨gap', rest, rfl, hgap', hrest'⟩ := exists_gap rest'
    have hnext : input.chars = (before ++ gap ++ t.text.toList) ++ (gap' ++ rest) := by
      rw [hplace, List.append_assoc _ t.text.toList]
    have hlays := ih hproper.2 hapart hwords gap' rest hnext hgap' hrest'
      (h.skipEnd_eq hgap' hrest' hnext)
    exact .cons hgap (hproper.1.longest (hlays.stopsAt hfirst)) hlays

/-- The longest token behind blanks is the longest lexeme there. -/
theorem token_longest (h : Conforms g) {t : Token} (hgap : ∀ c ∈ gap, isBlank c = true)
    (hchars : input.chars = before ++ (gap ++ (t.text.toList ++ after))) (ht : t.Longest after)
    {a : SymbolId} (hlexeme : g.isLexeme a = true) (hmatches : g.Matches a t.text.toList) :
    (g.longestLattice input).token (byteLength before) a
      (byteLength (before ++ gap ++ t.text.toList)) := by
  have hskip := h.skipEnd_eq hgap (ht.1.isBlank_head after) hchars
  have hplace : input.chars = (before ++ gap) ++ (t.text.toList ++ after) :=
    hchars.trans (List.append_assoc _ _ _).symm
  have hpos : byteLength t.text.toList ≠ 0 := by
    obtain ⟨c, cs, hc, -⟩ := ht.1.exists_cons
    rw [hc]
    exact mt Grammar.byteLength_eq_zero_iff.mp (List.cons_ne_nil c cs)
  refine ⟨⟨by simp only [byteLength_append]; omega, hlexeme, ?_⟩, ?_⟩
  · rw [hskip]
    exact (Grammar.covers_iff hplace).mpr ⟨_, after, rfl, rfl, hmatches⟩
  · rintro s' j' ⟨-, hlexeme', hcovers⟩
    rw [hskip, Grammar.covers_iff hplace] at hcovers
    obtain ⟨text, rest, heq, rfl, hmatches'⟩ := hcovers
    rcases h.token_or_blanks hlexeme' hmatches' with ⟨t', hproper, rfl⟩ | ⟨hne, hblank⟩
    · obtain ⟨more, hmore⟩ := ht.2 t' rest hproper heq
      rw [← hmore]
      simp only [byteLength_append]
      omega
    · -- No token begins with a blank.
      obtain ⟨c, cs, rfl⟩ := List.exists_cons_of_ne_nil hne
      have hhead := ht.1.isBlank_head after c (by rw [heq]; rfl)
      rw [hblank c List.mem_cons_self] at hhead
      cases hhead

/-- Longest tokens are longest lexemes. -/
theorem exists_chain (h : Conforms g) {ts : List Token} (hlays : Lays ts after)
    {as : List SymbolId} (has : List.Forall₂ (fun a t => g.isLexeme a = true ∧
      g.Matches a (Token.text t).toList) as ts) (hchars : input.chars = before ++ after) :
    ∃ p, (g.longestLattice input).Chain as (byteLength before) p ∧
      input.size ≤ g.skipEnd input p := by
  induction hlays generalizing before as with
  | @nil gap hgap =>
    cases has
    refine ⟨_, .nil _, ?_⟩
    have hplace : input.chars = before ++ (gap ++ []) := by rw [hchars, List.append_nil]
    rw [h.skipEnd_eq hgap (by simp) hplace, input.size_eq, hchars]
  | @cons t ts gap rest hgap ht hlays ih =>
    obtain ⟨a, as, ⟨hlexeme, hmatches⟩, hrest, rfl⟩ := List.forall₂_cons_right_iff.mp has
    have hplace : input.chars = (before ++ gap) ++ (t.text.toList ++ rest) :=
      hchars.trans (List.append_assoc _ _ _).symm
    have hnext : input.chars = (before ++ gap ++ t.text.toList) ++ rest := by
      rw [hplace, List.append_assoc _ t.text.toList]
    obtain ⟨p, hchain, hend⟩ := ih hrest hnext
    exact ⟨p, .cons (h.token_longest hgap hchars ht hlexeme hmatches) hchain, hend⟩

end Conforms

end Scannerless.Calculator
