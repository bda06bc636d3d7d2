import Scannerless.Proofs.Evaluation.Meanings
import Scannerless.Proofs.GrammarText.Notions
import Scannerless.Proofs.GrammarText.Words

/-!
# The phrases of notions

What the symbols of the notation come to. A phrase of a notion is a part of a statement, and it is
written with the words of this part. The actions of the notation hand this up: out of phrases
of the notions on its right side a production makes one of the notion on its left.

## Main definitions

- `GrammarText.vocabulary` — the tokens that may stand for symbols, elements, names and values.
- `GrammarText.Says` — the phrases of a notion with their words.
- `GrammarText.Means` — the same for what a symbol hands up, which may be several phrases.

## Main statements

- `GrammarText.handsUp_of_plain`, `GrammarText.says_whole` — actions make phrases of phrases.
- `GrammarText.outcome_of_production` — productions hand meanings up.
-/

namespace Scannerless.GrammarText

/-! ### Phrases with their words -/

/-- The tokens that may stand for symbols. -/
def symbolNames : List String :=
  ["bare_name", "bracketed_name"]

/-- The tokens that may stand for elements. -/
def elementNames : List String :=
  symbolNames ++ ["literal", "char_class"]

/-- A word is a token with one of some names. -/
def IsTokenOf (names : List String) (w : String) : Prop :=
  ∃ name ∈ names, w.toList ∈ language name

/-- The tokens that may stand for symbols, elements, names and values. -/
def vocabulary : Vocabulary where
  symbol := IsTokenOf symbolNames
  element := IsTokenOf elementNames
  name := IsTokenOf ["bare_name"]
  value := IsTokenOf valueNames

theorem IsTokenOf.mono {names names' : List String} (h : names ⊆ names') {w : String}
    (hw : IsTokenOf names w) : IsTokenOf names' w := by
  obtain ⟨name, hname, hw⟩ := hw
  exact ⟨name, h hname, hw⟩

/-- A phrase that is made of some part and is written with the words of this part. -/
def Written {α : Type} (part : α → Prop) (phrase : α → Phrase) (words : α → List String)
    (p : Phrase) (ws : List String) : Prop :=
  ∃ x, part x ∧ p = phrase x ∧ ws = words x

/-- The phrases of a notion with their words. -/
def Says : Notion → Phrase → List String → Prop
  | .mark word => Written (· = word) .token ([·])
  | .token name => Written (IsTokenOf [name]) .token ([·])
  | .value => Written vocabulary.value .token ([·])
  | .symbol => fun p ws => ∃ offset, Written vocabulary.symbol (.element · offset) ([·]) p ws
  | .element => fun p ws => ∃ offset, Written vocabulary.element (.element · offset) ([·]) p ws
  | .item => Written (RhsItem.In vocabulary) .item RhsItem.words
  | .adverb => Written (Adverb.In vocabulary) .adverb Adverb.words
  | .alternative => Written (Alternative.In vocabulary) .alternative Alternative.words
  | .statement => Written (Statement.In vocabulary) .statement Statement.words
  | .whole .items => Written (∀ i ∈ ·, i.In vocabulary) .items (·.flatMap RhsItem.words)
  | .whole .adverbs => Written (∀ a ∈ ·, a.In vocabulary) .adverbs (·.flatMap Adverb.words)
  | .whole .alternatives => Written (AlternativesIn vocabulary) .alternatives alternativesWords
  | .whole .tiers => Written (TiersIn vocabulary) .tiers tiersWords
  | .whole .statements => Written (∀ s ∈ ·, s.In vocabulary) .statements (·.flatMap Statement.words)
  | .listed _ => fun _ _ => False

/-- What a symbol of a notion hands up: the phrases of a list of parts, or else one phrase. -/
def Means : Notion → List Phrase → List String → Prop
  | .listed s, ps, ws => ps ≠ [] ∧ ∃ wss, List.Forall₂ (Says s.part) ps wss ∧
      ws = s.separator.intercalate wss
  | n, ps, ws => ∃ p, ps = [p] ∧ Says n p ws

/-- Whether a notion is that of the parts of a sequence one behind the other. -/
def Notion.isListed : Notion → Bool
  | .listed _ => true
  | _ => false

theorem means_iff_of_not_isListed {n : Notion} (hn : n.isListed = false) {ps : List Phrase}
    {ws : List String} : Means n ps ws ↔ ∃ p, ps = [p] ∧ Says n p ws := by
  cases n with
  | listed s => cases hn
  | _ => exact Iff.rfl

/-! ### Applied actions -/

theorem applyRule_named {c : RuleContext} {name : String} {f : RuleContext → List Phrase → Phrase}
    (hc : c.rule.semantics = .apply (some (.named name))) (hf : Phrase.actions.find? name = some f)
    (ps : List Phrase) : applyRule Phrase.actions c ps = .ok (f c ps) := by
  rw [applyRule, Grammar.actionOf, hc]
  simp only [hf]

theorem applyRule_first {c : RuleContext} (hc : c.rule.semantics = .apply (some .first))
    (p : Phrase) : applyRule Phrase.actions c [p] = .ok p := by
  rw [applyRule, Grammar.actionOf, hc]
  rfl

/-- Without an action a rule of one token comes to that token. -/
theorem applyRule_default {c : RuleContext} (hc : c.rule.semantics = .apply none)
    (hdefault : c.grammar.defaultAction = none) (hne : c.rule.rhs ≠ [])
    (hrhs : ∀ s ∈ c.rule.rhs, c.grammar.isLexeme s = true) (p : Phrase) :
    applyRule Phrase.actions c [p] = .ok p := by
  have htest : (!c.rule.rhs.isEmpty && c.rule.rhs.all c.grammar.isLexeme) = true := by
    simpa [hne] using hrhs
  rw [applyRule, Grammar.actionOf, hc]
  simp only [hdefault]
  rw [defaultValue, if_pos htest]
  rfl

/-- Phrases of parts are gathered into a list of these parts. -/
theorem gather_of_written {α : Type} {part : α → Prop} {phrase : α → Phrase}
    {words : α → List String} (part? : Phrase → Option α) (whole : List α → Phrase)
    (hpart : ∀ x, part? (phrase x) = some x) {ps : List Phrase} {wss : List (List String)}
    (h : List.Forall₂ (Written part phrase words) ps wss) :
    ∃ xs, Phrase.gather part? whole ps = whole xs ∧ (∀ x ∈ xs, part x) ∧ wss = xs.map words ∧
      ps = xs.map phrase := by
  obtain ⟨xs, hall, rfl, rfl⟩ : ∃ xs : List α, (∀ x ∈ xs, part x) ∧ wss = xs.map words ∧
      ps = xs.map phrase := by
    induction h with
    | nil => exact ⟨[], List.forall_mem_nil _, rfl, rfl⟩
    | cons hp _ ih =>
      obtain ⟨x, hx, rfl, rfl⟩ := hp
      obtain ⟨xs, hxs, rfl, rfl⟩ := ih
      exact ⟨x :: xs, List.forall_mem_cons.mpr ⟨hx, hxs⟩, rfl, rfl⟩
  refine ⟨xs, ?_, hall, rfl, rfl⟩
  have hmapM : (xs.map phrase).mapM part? = some xs := by
    have hcomp : part? ∘ phrase = pure := funext hpart
    rw [List.mapM_map, hcomp, List.mapM_pure, List.map_id']
    rfl
  rw [Phrase.gather, hmapM]

/-! ### Sequences -/

/-- The words of parts with separators between them. -/
def Sequence.join (s : Sequence) (wss : List (List String)) : List String :=
  s.separator.intercalate wss

theorem Sequence.join_of_nil {s : Sequence} (h : s.separator = []) (wss : List (List String)) :
    s.join wss = wss.flatten := by
  rw [join, h]
  induction wss with
  | nil => rfl
  | cons ws wss ih =>
    cases wss with
    | nil => simp
    | cons ws' wss =>
      rw [List.intercalate_cons_cons, ih, List.append_nil]
      rfl

/-- The action of a sequence makes one phrase of those of its parts. -/
theorem says_whole (s : Sequence) {ps : List Phrase} {wss : List (List String)}
    (h : List.Forall₂ (Says s.part) ps wss) (hne : s.mayBeEmpty = false → ps ≠ []) :
    ∃ f, Phrase.actions.find? s.name = some f ∧
      ∀ c, Says (.whole s) (f c ps) (s.join wss) := by
  cases s with
  | items =>
    obtain ⟨is, hgather, hall, rfl, -⟩ :=
      gather_of_written Phrase.item? .items (fun _ => rfl) h
    exact ⟨_, rfl, fun _ => ⟨is, hall, hgather, Sequence.join_of_nil rfl _⟩⟩
  | adverbs =>
    obtain ⟨as, hgather, hall, rfl, -⟩ :=
      gather_of_written Phrase.adverb? .adverbs (fun _ => rfl) h
    exact ⟨_, rfl, fun _ => ⟨as, hall, hgather, Sequence.join_of_nil rfl _⟩⟩
  | alternatives =>
    obtain ⟨as, hgather, hall, rfl, rfl⟩ :=
      gather_of_written Phrase.alternative? .alternatives (fun _ => rfl) h
    exact ⟨_, rfl, fun _ => ⟨as, ⟨List.map_eq_nil_iff.not.mp (hne rfl), hall⟩, hgather, rfl⟩⟩
  | tiers =>
    obtain ⟨ts, hgather, hall, rfl, rfl⟩ :=
      gather_of_written Phrase.alternatives? .tiers (fun _ => rfl) h
    exact ⟨_, rfl, fun _ => ⟨ts, ⟨List.map_eq_nil_iff.not.mp (hne rfl), hall⟩, hgather, rfl⟩⟩
  | statements =>
    obtain ⟨ss, hgather, hall, rfl, -⟩ :=
      gather_of_written Phrase.statement? .statements (fun _ => rfl) h
    exact ⟨_, rfl, fun _ => ⟨ss, hall, hgather, Sequence.join_of_nil rfl _⟩⟩

/-! ### Other productions -/

/-- The productions that are not those of sequences. -/
def plainProductions : List Production :=
  statementProductions ++
    [production .alternative [.whole .items, .whole .adverbs] (some (.named "alternative"))] ++
    rightSideProductions ++
    [production .adverb [.token "bare_name", .mark "=>", .value] (some (.named "adverb"))] ++
    valueNames.map fun name => production .value [.token name] none

def sequences : List Sequence :=
  [.items, .adverbs, .alternatives, .tiers, .statements]

theorem productions_cases : ∀ p ∈ productions,
    p ∈ plainProductions ∨ ∃ s ∈ sequences, p ∈ s.productions := by
  decide

/-- A production applies an action, or the default, to the values of all that it has on its right
    side, each of which is one phrase. -/
def Production.isPlain (p : Production) : Bool :=
  p.semantics != .splice && p.mask == p.rhs.map (fun _ => true) &&
    (p.lhs :: p.rhs).all (!·.isListed)

theorem isPlain_of_mem : ∀ p ∈ plainProductions, p.isPlain = true := by
  decide

/-- A context in which the rule of a production applies. Tokens that are alone on the right side
    are lexemes. -/
structure Applies (p : Production) (c : RuleContext) : Prop where
  semantics : c.rule.semantics = p.semantics
  defaultAction : c.grammar.defaultAction = none
  lexeme : ∀ name, p.rhs = [.token name] →
    c.rule.rhs ≠ [] ∧ ∀ s ∈ c.rule.rhs, c.grammar.isLexeme s = true

/-- Out of phrases of the notions on its right side a production makes one of the notion on its
    left, with the words of all of them. -/
def HandsUp (p : Production) : Prop :=
  ∀ xs : List (Phrase × List String), List.Forall₂ (fun n x => Says n x.1 x.2) p.rhs xs →
    ∀ c, Applies p c → ∃ value, applyRule Phrase.actions c (xs.map Prod.fst) = .ok value ∧
      Says p.lhs value (xs.flatMap Prod.snd)

/-- A production with an action that is bound to a function. -/
theorem handsUp_named {lhs : Notion} {rhs : List Notion} {name : String}
    {f : RuleContext → List Phrase → Phrase} (hf : Phrase.actions.find? name = some f)
    (h : ∀ xs : List (Phrase × List String), List.Forall₂ (fun n x => Says n x.1 x.2) rhs xs →
      ∀ c, Says lhs (f c (xs.map Prod.fst)) (xs.flatMap Prod.snd)) :
    HandsUp (production lhs rhs (some (.named name))) :=
  fun xs hxs c hc => ⟨_, applyRule_named hc.semantics hf _, h xs hxs c⟩

/-! The phrases of the notions on a right side, one notion at a time. -/

section

variable {n : Notion} {rhs : List Notion} {xs : List (Phrase × List String)}

theorem forall₂_says_cons : List.Forall₂ (fun n x => Says n x.1 x.2) (n :: rhs) xs ↔
    ∃ p ws ys, Says n p ws ∧
      List.Forall₂ (fun n (x : Phrase × List String) => Says n x.1 x.2) rhs ys ∧
      xs = (p, ws) :: ys := by
  rw [List.forall₂_cons_left_iff]
  constructor
  · rintro ⟨⟨p, ws⟩, ys, hp, hys, rfl⟩
    exact ⟨p, ws, ys, hp, hys, rfl⟩
  · rintro ⟨p, ws, ys, hp, hys, rfl⟩
    exact ⟨(p, ws), ys, hp, hys, rfl⟩

theorem forall₂_says_singleton : List.Forall₂ (fun n x => Says n x.1 x.2) [n] xs ↔
    ∃ p ws, Says n p ws ∧ xs = [(p, ws)] := by
  rw [forall₂_says_cons]
  constructor
  · rintro ⟨p, ws, ys, hp, hys, rfl⟩
    obtain rfl := List.forall₂_nil_left_iff.mp hys
    exact ⟨p, ws, hp, rfl⟩
  · rintro ⟨p, ws, hp, rfl⟩
    exact ⟨p, ws, [], hp, .nil, rfl⟩

theorem forall₂_says_mark {word : String} :
    List.Forall₂ (fun n x => Says n x.1 x.2) (.mark word :: rhs) xs ↔
      ∃ ys, List.Forall₂ (fun n (x : Phrase × List String) => Says n x.1 x.2) rhs ys ∧
        xs = (.token word, [word]) :: ys := by
  rw [forall₂_says_cons]
  constructor
  · rintro ⟨_, _, ys, ⟨_, rfl, rfl, rfl⟩, hys, rfl⟩
    exact ⟨ys, hys, rfl⟩
  · rintro ⟨ys, hys, rfl⟩
    exact ⟨_, _, ys, ⟨word, rfl, rfl, rfl⟩, hys, rfl⟩

end

theorem handsUp_statement : ∀ p ∈ statementProductions, HandsUp p := by
  simp only [statementProductions, List.forall_mem_cons]
  refine ⟨handsUp_named rfl ?_, handsUp_named rfl ?_, handsUp_named rfl ?_, handsUp_named rfl ?_,
    handsUp_named rfl ?_, handsUp_named rfl ?_, List.forall_mem_nil _⟩
  all_goals
    intro xs hxs c
  · obtain ⟨_, hrest, rfl⟩ := forall₂_says_mark.mp hxs
    obtain ⟨_, hlast, rfl⟩ := forall₂_says_mark.mp hrest
    obtain ⟨_, _, ⟨_, w, hw, rfl, rfl⟩, rfl⟩ := forall₂_says_singleton.mp hlast
    exact ⟨.start w c.start, hw, rfl, rfl⟩
  · obtain ⟨_, hrest, rfl⟩ := forall₂_says_mark.mp hxs
    obtain ⟨_, hlast, rfl⟩ := forall₂_says_mark.mp hrest
    obtain ⟨_, _, ⟨said, hsaid, rfl, rfl⟩, rfl⟩ := forall₂_says_singleton.mp hlast
    exact ⟨.default said c.start, hsaid, rfl, by simp [Statement.words]⟩
  · obtain ⟨_, hrest, rfl⟩ := forall₂_says_mark.mp hxs
    obtain ⟨_, hlast, rfl⟩ := forall₂_says_mark.mp hrest
    obtain ⟨_, _, ⟨_, w, hw, rfl, rfl⟩, rfl⟩ := forall₂_says_singleton.mp hlast
    exact ⟨.discard w c.start, hw, rfl, rfl⟩
  · obtain ⟨_, hrest, rfl⟩ := forall₂_says_mark.mp hxs
    obtain ⟨_, hequals, rfl⟩ := forall₂_says_mark.mp hrest
    obtain ⟨_, hlast, rfl⟩ := forall₂_says_mark.mp hequals
    obtain ⟨_, _, ⟨said, hsaid, rfl, rfl⟩, rfl⟩ := forall₂_says_singleton.mp hlast
    exact ⟨.lexemeDefault said c.start, hsaid, rfl, by simp [Statement.words]⟩
  · obtain ⟨_, _, _, ⟨_, w, hw, rfl, rfl⟩, hrest, rfl⟩ := forall₂_says_cons.mp hxs
    obtain ⟨_, hlast, rfl⟩ := forall₂_says_mark.mp hrest
    obtain ⟨_, _, ⟨tiers, htiers, rfl, rfl⟩, rfl⟩ := forall₂_says_singleton.mp hlast
    exact ⟨.structural w tiers c.start, ⟨hw, htiers⟩, rfl, by simp [Statement.words]⟩
  · obtain ⟨_, _, _, ⟨_, w, hw, rfl, rfl⟩, hrest, rfl⟩ := forall₂_says_cons.mp hxs
    obtain ⟨_, hlast, rfl⟩ := forall₂_says_mark.mp hrest
    obtain ⟨_, _, ⟨alts, halts, rfl, rfl⟩, rfl⟩ := forall₂_says_singleton.mp hlast
    exact ⟨.lexical w alts c.start, ⟨hw, halts⟩, rfl, by simp [Statement.words]⟩

theorem handsUp_alternative :
    HandsUp (production .alternative [.whole .items, .whole .adverbs]
      (some (.named "alternative"))) := by
  refine handsUp_named rfl fun xs hxs c => ?_
  obtain ⟨_, _, _, ⟨items, hitems, rfl, rfl⟩, hlast, rfl⟩ := forall₂_says_cons.mp hxs
  obtain ⟨_, _, ⟨said, hsaid, rfl, rfl⟩, rfl⟩ := forall₂_says_singleton.mp hlast
  exact ⟨⟨items, said, _⟩, ⟨hitems, hsaid⟩, rfl, by simp [Alternative.words]⟩

theorem handsUp_adverb :
    HandsUp (production .adverb [.token "bare_name", .mark "=>", .value]
      (some (.named "adverb"))) := by
  refine handsUp_named rfl fun xs hxs c => ?_
  obtain ⟨_, _, _, ⟨name, hname, rfl, rfl⟩, hrest, rfl⟩ := forall₂_says_cons.mp hxs
  obtain ⟨_, hlast, rfl⟩ := forall₂_says_mark.mp hrest
  obtain ⟨_, _, ⟨value, hvalue, rfl, rfl⟩, rfl⟩ := forall₂_says_singleton.mp hlast
  exact ⟨⟨name, value, c.start⟩, ⟨hname, hvalue⟩, rfl, rfl⟩

/-- The quantifier that a token spells. -/
theorem exists_quantifier {w : String} (h : IsTokenOf ["quantifier"] w) :
    (Phrase.quantifier w).words = [w] := by
  obtain ⟨name, hname, hw⟩ := h
  obtain rfl := List.mem_singleton.mp hname
  have hword {cs : List Char} (h : w.toList = cs) : w = String.ofList cs := by
    rw [← h, String.ofList_toList]
  rcases mem_quantifier_iff.mp hw with h | h | h
  all_goals
    rw [hword h]
    rfl

/-- A symbol or an element that is spelled by a token. -/
theorem handsUp_spelled {lhs : Notion} {name : String}
    (h : ∀ w offset, IsTokenOf [name] w → Says lhs (.element w offset) [w]) :
    HandsUp (production lhs [.token name] (some (.named "spelled"))) := by
  refine handsUp_named rfl fun xs hxs c => ?_
  obtain ⟨_, _, ⟨w, hw, rfl, rfl⟩, rfl⟩ := forall₂_says_singleton.mp hxs
  exact h w c.start hw

theorem handsUp_rightSide : ∀ p ∈ rightSideProductions, HandsUp p := by
  simp only [rightSideProductions, List.forall_mem_cons]
  refine ⟨handsUp_named rfl ?_, handsUp_named rfl ?_, ?_, handsUp_spelled ?_, handsUp_spelled ?_,
    handsUp_spelled ?_, handsUp_spelled ?_, List.forall_mem_nil _⟩
  · intro xs hxs c
    obtain ⟨_, _, ⟨offset, w, hw, rfl, rfl⟩, rfl⟩ := forall₂_says_singleton.mp hxs
    exact ⟨⟨w, .one, offset⟩, hw, rfl, rfl⟩
  · intro xs hxs c
    obtain ⟨_, _, _, ⟨offset, w, hw, rfl, rfl⟩, hlast, rfl⟩ := forall₂_says_cons.mp hxs
    obtain ⟨_, _, ⟨q, hq, rfl, rfl⟩, rfl⟩ := forall₂_says_singleton.mp hlast
    refine ⟨⟨w, Phrase.quantifier q, offset⟩, hw, rfl, ?_⟩
    rw [RhsItem.words, exists_quantifier hq]
    rfl
  · intro xs hxs c hc
    obtain ⟨_, _, ⟨offset, w, hw, rfl, rfl⟩, rfl⟩ := forall₂_says_singleton.mp hxs
    exact ⟨_, applyRule_first hc.semantics _, offset, w, hw.mono (List.subset_append_left _ _),
      rfl, rfl⟩
  · exact fun w offset hw => ⟨offset, w, hw.mono (by decide), rfl, rfl⟩
  · exact fun w offset hw => ⟨offset, w, hw.mono (by decide), rfl, rfl⟩
  · exact fun w offset hw => ⟨offset, w, hw.mono (by decide), rfl, rfl⟩
  · exact fun w offset hw => ⟨offset, w, hw.mono (by decide), rfl, rfl⟩

theorem handsUp_value {name : String} (hname : name ∈ valueNames) :
    HandsUp (production .value [.token name] none) := by
  intro xs hxs c hc
  obtain ⟨_, _, ⟨w, hw, rfl, rfl⟩, rfl⟩ := forall₂_says_singleton.mp hxs
  obtain ⟨hne, hlexeme⟩ := hc.lexeme name rfl
  exact ⟨_, applyRule_default hc.semantics hc.defaultAction hne hlexeme _, w,
    hw.mono (by simpa using hname), rfl, rfl⟩

theorem handsUp_of_plain {p : Production} (hp : p ∈ plainProductions) : HandsUp p := by
  simp only [plainProductions, List.mem_append, List.mem_singleton, List.mem_map] at hp
  obtain (((hp | rfl) | hp) | rfl) | ⟨name, hname, rfl⟩ := hp
  · exact handsUp_statement p hp
  · exact handsUp_alternative
  · exact handsUp_rightSide p hp
  · exact handsUp_adverb
  · exact handsUp_value hname

/-! ### Productions hand meanings up -/

/-- The phrases of parts, one for each, with their words. -/
theorem exists_says {ns : List Notion} (hns : ∀ n ∈ ns, n.isListed = false)
    {parts : List (Portion Phrase)}
    (h : List.Forall₂ (fun n part => Means n part.values part.words) ns parts) :
    ∃ xs : List (Phrase × List String), List.Forall₂ (fun n x => Says n x.1 x.2) ns xs ∧
      parts.flatMap Portion.values = xs.map Prod.fst ∧
      parts.flatMap Portion.words = xs.flatMap Prod.snd := by
  induction h with
  | nil => exact ⟨[], .nil, rfl, rfl⟩
  | @cons n part ns parts hpart _ ih =>
    rw [List.forall_mem_cons] at hns
    obtain ⟨p, hp, hsays⟩ := (means_iff_of_not_isListed hns.1).mp hpart
    obtain ⟨xs, hxs, hvalues, hwords⟩ := ih hns.2
    refine ⟨(p, part.words) :: xs, .cons hsays hxs, ?_, ?_⟩
    · rw [List.flatMap_cons, hp, hvalues]
      rfl
    · rw [List.flatMap_cons, hwords]
      rfl

theorem Sequence.join_concat (s : Sequence) {wss : List (List String)} (hne : wss ≠ [])
    (ws : List String) : s.join (wss ++ [ws]) = s.join wss ++ s.separator ++ ws := by
  induction wss with
  | nil => exact absurd rfl hne
  | cons ws' wss ih =>
    cases wss with
    | nil => simp [join]
    | cons ws'' wss =>
      have hrest := ih (List.cons_ne_nil _ _)
      simp only [join, List.cons_append, List.intercalate_cons_cons] at hrest ⊢
      rw [hrest]
      simp

/-- What the values and the words of the parts of a production come to: phrases that are handed
    on, or one phrase that an action makes of them. -/
def Outcome (p : Production) (values : List Phrase) (words : List String) : Prop :=
  if p.semantics = .splice then Means p.lhs values words
  else ∀ c, Applies p c → ∃ value,
    applyRule Phrase.actions c values = .ok value ∧ Means p.lhs [value] words

theorem outcome_of_plain {p : Production} (hp : p ∈ plainProductions)
    {parts : List (Portion Phrase)}
    (h : List.Forall₂ (fun n part => Means n part.values part.words) p.rhs parts) :
    Outcome p ((kept p.mask parts).flatMap Portion.values) (parts.flatMap Portion.words) := by
  have hplain := isPlain_of_mem p hp
  simp only [Production.isPlain, Bool.and_eq_true, bne_iff_ne, beq_iff_eq, List.all_eq_true,
    Bool.not_eq_true', List.forall_mem_cons] at hplain
  obtain ⟨⟨hsemantics, hmask⟩, hlhs, hrhs⟩ := hplain
  obtain ⟨xs, hxs, hvalues, hwords⟩ := exists_says hrhs h
  rw [Outcome, if_neg hsemantics, hmask, kept_of_all h.length_eq, hvalues, hwords]
  intro c hc
  obtain ⟨value, hvalue, hsays⟩ := handsUp_of_plain hp xs hxs c hc
  exact ⟨value, hvalue, (means_iff_of_not_isListed hlhs).mpr ⟨value, rfl, hsays⟩⟩

/-- The separators of a sequence are written as they are. -/
theorem words_of_separators {ws : List String} {parts : List (Portion Phrase)}
    (h : List.Forall₂ (fun n part => Means n part.values part.words) (ws.map Notion.mark) parts) :
    parts.flatMap Portion.words = ws := by
  induction ws generalizing parts with
  | nil =>
    obtain rfl := List.forall₂_nil_left_iff.mp h
    rfl
  | cons w ws ih =>
    obtain ⟨part, rest, ⟨p, -, word, rfl, -, hwords⟩, hrest, rfl⟩ :=
      List.forall₂_cons_left_iff.mp h
    rw [List.flatMap_cons, hwords, ih hrest]
    rfl

theorem part_isListed (s : Sequence) : s.part.isListed = false := by
  cases s <;> rfl

/-- Of the parts with separators in front the mask keeps those around the separators. -/
theorem kept_around {α : Type} (first last : α) (marks : List α) :
    kept (true :: marks.map (fun _ => false) ++ [true]) (first :: marks ++ [last]) =
      [first, last] := by
  have hmarks : kept (marks.map fun _ => false) marks = [] := by
    simp only [kept, List.map_eq_nil_iff, List.filter_eq_nil_iff]
    rintro ⟨x, mark⟩ hmem
    obtain ⟨_, -, rfl⟩ := List.mem_map.mp (List.of_mem_zip hmem).2
    exact Bool.false_ne_true
  calc kept ([true] ++ (marks.map (fun _ => false) ++ [true])) ([first] ++ (marks ++ [last]))
      = kept [true] [first] ++ kept (marks.map (fun _ => false) ++ [true]) (marks ++ [last]) :=
        kept_append (by rfl)
    _ = [first] ++ (kept (marks.map fun _ => false) marks ++ kept [true] [last]) := by
        rw [kept_append (List.length_map _)]
        rfl
    _ = [first, last] := by
        rw [hmarks]
        rfl

theorem outcome_listed (s : Sequence) (ps : List Phrase) (wss : List (List String))
    {rhs : List Notion} {mask : List Bool} {parts : List (Portion Phrase)}
    (hvalues : (kept mask parts).flatMap Portion.values = ps)
    (hwords : parts.flatMap Portion.words = s.join wss) (hne : ps ≠ [])
    (hps : List.Forall₂ (Says s.part) ps wss) :
    Outcome ⟨.listed s, rhs, .splice, mask⟩ ((kept mask parts).flatMap Portion.values)
      (parts.flatMap Portion.words) := by
  rw [Outcome, if_pos rfl, hvalues, hwords]
  exact ⟨hne, wss, hps, rfl⟩

theorem outcome_whole (s : Sequence) (rhs : List Notion) {ps : List Phrase}
    {wss : List (List String)} (hps : List.Forall₂ (Says s.part) ps wss)
    (hne : s.mayBeEmpty = false → ps ≠ []) :
    Outcome (production (.whole s) rhs (some (.named s.name))) ps (s.join wss) := by
  obtain ⟨f, hf, hsays⟩ := says_whole s hps hne
  rw [Outcome, if_neg (by simp [production])]
  exact fun c hc => ⟨_, applyRule_named hc.semantics hf _, _, rfl, hsays c⟩

theorem exists_concat_of_forall₂ {α β : Type} {R : α → β → Prop} {xs : List α} {x : α}
    {zs : List β} (h : List.Forall₂ R (xs ++ [x]) zs) :
    ∃ ys y, List.Forall₂ R xs ys ∧ R x y ∧ zs = ys ++ [y] := by
  induction xs generalizing zs with
  | nil =>
    obtain ⟨y, _, hy, hnil, rfl⟩ := List.forall₂_cons_left_iff.mp h
    obtain rfl := List.forall₂_nil_left_iff.mp hnil
    exact ⟨[], y, .nil, hy, rfl⟩
  | cons a xs ih =>
    obtain ⟨b, _, hb, hrest, rfl⟩ := List.forall₂_cons_left_iff.mp h
    obtain ⟨ys, y, hys, hy, rfl⟩ := ih hrest
    exact ⟨b :: ys, y, .cons hb hys, hy, rfl⟩

theorem outcome_of_sequence (s : Sequence) {p : Production} (hp : p ∈ s.productions)
    {parts : List (Portion Phrase)}
    (h : List.Forall₂ (fun n part => Means n part.values part.words) p.rhs parts) :
    Outcome p ((kept p.mask parts).flatMap Portion.values) (parts.flatMap Portion.words) := by
  rw [Sequence.productions, List.mem_append] at hp
  simp only [List.mem_cons, List.not_mem_nil, or_false] at hp
  obtain (rfl | rfl | rfl) | hp := hp
  · -- The first part.
    obtain ⟨part, _, hpart, hnil, rfl⟩ := List.forall₂_cons_left_iff.mp h
    obtain rfl := List.forall₂_nil_left_iff.mp hnil
    obtain ⟨p, hp, hsays⟩ := (means_iff_of_not_isListed (part_isListed s)).mp hpart
    refine outcome_listed s [p] [part.words] ?_ ?_ (List.cons_ne_nil _ _)
      (.cons hsays .nil)
    · simp [kept, hp]
    · simp [Sequence.join]
  · -- One more part behind a separator.
    obtain ⟨first, _, ⟨hne, wss, hps, hfirst⟩, hrest, rfl⟩ := List.forall₂_cons_left_iff.mp h
    obtain ⟨marks, last, hmarks, hlast, rfl⟩ := exists_concat_of_forall₂ hrest
    obtain ⟨p, hp, hsays⟩ := (means_iff_of_not_isListed (part_isListed s)).mp hlast
    have hwss : wss ≠ [] := fun hnil => by
      rw [hnil, List.forall₂_nil_right_iff] at hps
      exact hne hps
    refine outcome_listed s (first.values ++ [p]) (wss ++ [last.words]) ?_ ?_
      (List.append_ne_nil_of_left_ne_nil hne _) (List.rel_append hps (.cons hsays .nil))
    · have hlength : s.separator.map (fun _ => false) = marks.map (fun _ => false) := by
        have hsame := hmarks.length_eq
        rw [List.length_map] at hsame
        rw [List.map_const', List.map_const', hsame]
      rw [hlength, ← List.cons_append, kept_around]
      simp [hp]
    · rw [Sequence.join_concat s hwss, Sequence.join, ← hfirst, ← words_of_separators hmarks]
      simp
  · -- All parts are made one phrase.
    obtain ⟨part, _, ⟨hne, wss, hps, hwords⟩, hnil, rfl⟩ := List.forall₂_cons_left_iff.mp h
    obtain rfl := List.forall₂_nil_left_iff.mp hnil
    have houtcome := outcome_whole s [.listed s] hps fun _ => hne
    simpa [kept, production, hwords, Sequence.join] using houtcome
  · -- No parts at all.
    split at hp
    next hempty =>
      obtain rfl := List.mem_singleton.mp hp
      obtain rfl := List.forall₂_nil_left_iff.mp h
      have houtcome := outcome_whole s [] .nil fun hnone =>
        absurd (hempty.symm.trans hnone) Bool.true_eq_false.mp
      simpa [kept, production, Sequence.join] using houtcome
    next => cases hp

/-- Productions hand meanings up. -/
theorem outcome_of_production {p : Production} (hp : p ∈ productions)
    {parts : List (Portion Phrase)}
    (h : List.Forall₂ (fun n part => Means n part.values part.words) p.rhs parts) :
    Outcome p ((kept p.mask parts).flatMap Portion.values) (parts.flatMap Portion.words) := by
  rcases productions_cases p hp with hp | ⟨s, -, hp⟩
  · exact outcome_of_plain hp h
  · exact outcome_of_sequence s hp h

end Scannerless.GrammarText
