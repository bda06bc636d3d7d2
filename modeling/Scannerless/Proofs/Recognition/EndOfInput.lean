import Scannerless.Proofs.Recognition.Failure

/-!
# Nothing else is expected

A run may be left at a place where no lexeme is expected. Every symbol that is awaited there is
then passed without a token, as it would ask for one otherwise, and so all that began before the
place ends there: what was read is a sentence of its own. This takes symbols that derive tokens.
One that never comes to its end asks for no token either, and nothing ends where it is awaited.

## Main definitions

- `RuleTable.Productive` — a symbol derives a list of tokens.

## Main statements

- `Chart.Finished.exists_start_spans` — if the items of a place pass all that they await, a start
  symbol ends there.
- `sentence_of_nothing_expected` — what was read is a sentence if nothing else is expected.
- `sentence_fails_endless` — it is none if what is awaited has no end.
-/

namespace Scannerless

open Text

namespace RuleTable

variable {t : RuleTable} {l : Lattice} {s : SymbolId} {k : Nat}

/-- A symbol derives a list of tokens. -/
def Productive (t : RuleTable) (s : SymbolId) : Prop :=
  ∃ w, t.Derives [s] w ∧ ∀ a ∈ w, t.hasRules a = false

/-- A productive symbol is passed on the spot or comes to a token there. -/
theorem Productive.spans_or_leads (h : t.Productive s) (hi : t.Indexed)
    (hl : ∀ {m s j}, l.token m s j → t.hasRules s = false) (k : Nat) :
    t.Spans l [s] k k ∨ ∃ a, t.hasRules a = false ∧ t.Leads l a k [s] k := by
  obtain ⟨w, hderives, hterminal⟩ := h
  cases w with
  | nil => exact Or.inl ((spans_iff_derives hi).mpr ⟨[], hderives, hterminal, .nil k⟩)
  | cons a rest =>
    have hleads : t.Leads l a k [s] k :=
      (leads_iff_derives hi hl).mpr ⟨[], rest, .nil k, hderives⟩
    exact Or.inr ⟨a, hterminal a List.mem_cons_self, hleads⟩

end RuleTable

namespace Chart

variable {t : RuleTable} {c c' : Chart t} {starts : List SymbolId} {l : Lattice} {k : Nat}

/-- The items of a place pass the symbols that they wait for, without a token. -/
def Passes (c : Chart t) (l : Lattice) (k : Nat) : Prop :=
  ∀ it ∈ (c.setAt k).items, ∀ s, t.next? it = some s → t.Spans l [s] k k

/-- Where no token is awaited, productive symbols are passed. -/
theorem Finished.passes (hc : c.Finished starts l) (hi : t.Indexed) (hl : l.Forward)
    (htoken : ∀ {m s j}, l.token m s j → t.hasRules s = false) (hexpected : c.expected k = [])
    (hproductive : ∀ it ∈ (c.setAt k).items, ∀ s, t.next? it = some s → t.Productive s) :
    c.Passes l k := by
  intro it hit s hnext
  rcases (hproductive it hit s hnext).spans_or_leads hi htoken k with hspans | ⟨a, hterm, hleads⟩
  · exact hspans
  -- A token that the symbol comes to would be awaited by some item.
  obtain ⟨i, hi'⟩ := (mem_items_iff c k it).mp hit
  have hdrop : t.Leads l a k ((t.rhs it.rule).drop it.dot) k := by
    rw [drop_of_next? hnext]
    exact hleads.append_right _
  obtain ⟨m, w, hw, hwaits⟩ := hc.exists_next? hi hl hi' hdrop
  have hmem : a ∈ c.expected k := (mem_expected_iff c k a).mpr ⟨hterm, m, w, hw, hwaits⟩
  rw [hexpected] at hmem
  cases hmem

/-- Items that pass what they wait for come to their ends. -/
theorem Finished.spans_drop (hc : c.Finished starts l) (hi : t.Indexed) (hl : l.Forward)
    (hk : c.Passes l k) {i : Nat} {it : Item} (hit : c.item? ⟨k, i⟩ = some it) :
    t.Spans l ((t.rhs it.rule).drop it.dot) k k := by
  generalize hss : (t.rhs it.rule).drop it.dot = ss
  induction ss generalizing i it with
  | nil => exact RuleTable.spans_nil_iff.mpr rfl
  | cons s ss ih =>
    have hnext := next?_of_drop hss
    have hs : t.Spans l [s] k k := hk it ((mem_items_iff c k it).mpr ⟨i, hit⟩) s hnext
    obtain ⟨m, hm⟩ := hc.exists_advanced hi hl hit hnext hs
    rw [drop_of_next? hnext] at hss
    exact RuleTable.spans_cons_iff.mpr ⟨k, hs, ih hm (List.cons.inj hss).2⟩

/-- An item that comes to its end at a place lets the symbol end there that it was predicted for,
    and so a start symbol in the end. -/
theorem Finished.start_spans_of_spans_drop (hc : c.Finished starts l) (hi : t.Indexed)
    (hl : l.Forward) (hk : c.Passes l k) (hc' : c'.Arises starts l)
    (hsub : ∀ ref it, c'.item? ref = some it → c.item? ref = some it) {ref : ItemRef} {it : Item}
    (hit : c'.item? ref = some it)
    (hspans : t.Spans l ((t.rhs it.rule).drop it.dot) ref.set k) :
    ∃ s ∈ starts, t.Spans l [s] 0 k := by
  -- The earlier charts are parts of the finished one, where the items on the way have moved.
  induction hc' generalizing ref it with
  | ofSize count => simp at hit
  | grow _ ih =>
    exact ih (fun ref it h => hsub ref it (by simpa using h)) (by simpa using hit) hspans
  | @apply c' refs b hc' hb ih =>
    have hsub' (ref : ItemRef) (it : Item) (h : c'.item? ref = some it) :
        c.item? ref = some it :=
      hsub ref it (item?_add_of_some _ _ _ h)
    rcases item?_add_cases hit with hit | ⟨hset, rfl⟩
    · exact ih hsub' hit hspans
    rw [hset] at hspans
    cases hb with
    | start hs hid => exact ⟨_, hs, RuleTable.spans_singleton_iff.mpr (Or.inr ⟨_, hid, hspans⟩)⟩
    | predicted hparent hnext hid =>
      have hs := RuleTable.spans_singleton_iff.mpr (Or.inr ⟨_, hid, hspans⟩)
      obtain ⟨m, hm⟩ := hc.exists_advanced hi hl (hsub' _ _ hparent) hnext hs
      refine ih hsub' hparent ?_
      rw [drop_of_next? hnext]
      exact RuleTable.spans_cons_iff.mpr ⟨k, hs, hc.spans_drop hi hl hk hm⟩
    | completed hparent hchild hnext hlhs hcomplete horigin =>
      have hspan := hc'.spans hi hchild
      rw [RuleTable.take_of_next?_eq_none hcomplete, horigin] at hspan
      have hs := RuleTable.spans_singleton_iff.mpr (Or.inr ⟨_, (hi _ _).mpr hlhs, hspan⟩)
      refine ih hsub' hparent ?_
      rw [drop_of_next? hnext]
      exact RuleTable.spans_cons_iff.mpr ⟨_, hs, hspans⟩
    | scanned hparent hnext hterm htoken =>
      have hs := RuleTable.spans_singleton_iff.mpr (Or.inl ⟨hterm, htoken⟩)
      refine ih hsub' hparent ?_
      rw [drop_of_next? hnext]
      exact RuleTable.spans_cons_iff.mpr ⟨_, hs, hspans⟩

/-- If the items of a place that was reached pass what they wait for, a start symbol ends there. -/
theorem Finished.exists_start_spans (hc : c.Finished starts l) (hi : t.Indexed) (hl : l.Forward)
    (hk : c.Passes l k) (hreached : (c.setAt k).isEmpty = false) :
    ∃ s ∈ starts, t.Spans l [s] 0 k := by
  obtain ⟨it, hit⟩ := exists_item?_of_isEmpty_eq_false hreached
  exact hc.start_spans_of_spans_drop hi hl hk hc.arises (fun _ _ h => h) hit
    (hc.spans_drop hi hl hk hit)

end Chart

namespace Recognition

variable {r : Recognition} {k : Nat}

/-- The names that a failure tells are those of the lexemes expected at the last place. -/
theorem map_expected_of_failure? {offset : Nat} {location : Location} {names : List String}
    (h : r.failure? = some (.noLexemeMatch offset location names)) :
    (r.run.chart.expected r.run.furthest).map r.grammar.name = names := by
  rw [failure?] at h
  split at h
  next =>
    dsimp only at h
    split at h
    next => cases h
    next => exact (RunError.noLexemeMatch.inj (Option.some.inj h)).2.2
  next => cases h

/-- A start symbol that ends at a place has a complete item there. -/
theorem Ended.completed_ne_nil (hr : r.Ended)
    (hstart : r.grammar.structural.hasRules r.grammar.start = true)
    (h : r.grammar.structural.Spans r.lattice [r.grammar.start] 0 k) :
    r.run.chart.completed k r.grammar.start 0 ≠ [] := by
  have hi := hr.coherent.structural
  rcases RuleTable.spans_singleton_iff.mp h with ⟨hterm, -⟩ | ⟨id, hid, hspans⟩
  · rw [hstart] at hterm
    cases hterm
  obtain ⟨m, hm⟩ := ((hr.finished.closedTo k).exists_complete_iff hi hr.forward
    List.mem_cons_self hid (Nat.le_refl k)).mpr hspans
  have hmem : (⟨k, m⟩ : ItemRef) ∈ r.run.chart.completed k r.grammar.start 0 :=
    Chart.mem_completed_iff.mpr ⟨rfl, _, hm, rfl,
      RuleTable.next?_eq_none_iff.mpr (Nat.le_refl _), (hi _ _).mp hid⟩
  exact List.ne_nil_of_mem hmem

/-- Where nothing is expected, and what is awaited is productive, the start symbol ends. -/
theorem Ended.sentence (hr : r.Ended)
    (hstart : r.grammar.structural.hasRules r.grammar.start = true) (hreached : r.Reached k)
    (hexpected : r.run.chart.expected k = [])
    (hproductive : ∀ it ∈ (r.run.chart.setAt k).items, ∀ s,
      r.grammar.structural.next? it = some s → r.grammar.structural.Productive s) :
    r.run.chart.completed k r.grammar.start 0 ≠ [] ∧
      ∃ w, r.lattice.Chain w 0 k ∧ r.grammar.structural.Derives [r.grammar.start] w := by
  have hi := hr.coherent.structural
  have hpasses := hr.finished.passes hi hr.forward (fun h => (hr.expected_of_token h).2) hexpected
    hproductive
  obtain ⟨s, hs, hspans⟩ := hr.finished.exists_start_spans hi hr.forward hpasses hreached
  obtain rfl := List.mem_singleton.mp hs
  obtain ⟨w, hderives, -, hchain⟩ := hspans.exists_chain hi
  exact ⟨hr.completed_ne_nil hstart hspans, w, hchain, hderives⟩

end Recognition

/-- If an input is left where nothing else is expected, and the symbols that are awaited there are
    productive, then the start symbol ends at the last place that was reached: it has a complete
    item there, and derives the tokens up to it. -/
theorem sentence_of_nothing_expected {g : Grammar} {limit : Option Nat} {input : String}
    {r : Recognition} {offset : Nat} {location : Location} (hg : g.IsCompiled)
    (hr : recognize g limit input = .ok r)
    (he : r.failure? = some (.noLexemeMatch offset location []))
    (hproductive : ∀ it ∈ (r.run.chart.setAt r.run.furthest).items, ∀ s,
      r.grammar.structural.next? it = some s → r.grammar.structural.Productive s) :
    r.grammar = g ∧
    r.Reached r.run.furthest ∧ (∀ k, r.Reached k → k ≤ r.run.furthest) ∧
    r.run.chart.completed r.run.furthest r.grammar.start 0 ≠ [] ∧
    ∃ w, r.lattice.Chain w 0 r.run.furthest ∧
      r.grammar.structural.Derives [r.grammar.start] w := by
  obtain ⟨run, hto, rfl⟩ := recognizeIndexed_eq_ok_iff.mp hr
  have hended : Recognition.Ended ⟨g, .ofList input.toList, run⟩ := ended_of_recognize hg hr
  have hstart := hg.wellFormed.structural.hasRules_iff.mpr hg.wellFormed.start
  obtain ⟨hreached, hlast⟩ := hended.furthest hg.wellFormed.start hto
  have hexpected := List.map_eq_nil_iff.mp (Recognition.map_expected_of_failure? he)
  exact ⟨rfl, hreached, hlast, hended.sentence hstart hreached hexpected hproductive⟩

/-- A text is a letter with an end behind it. -/
def Definition.ending (items : List String) : Definition :=
  ⟨[.rule "text" ["'x'", "end"], .rule "end" items], "endings"⟩

/-- With an end that is empty, a letter is a text, and nothing else is expected behind it. -/
theorem sentence_of_nothing_expected_empty :
    ∃ g r, (Definition.ending []).compile = .ok g ∧ recognize g none "xz" = .ok r ∧
      r.failure? = some (.noLexemeMatch 1 ⟨1, 2⟩ []) ∧
      r.run.chart.completed r.run.furthest r.grammar.start 0 ≠ [] := by
  have htest : (Definition.ending []).compile.toOption.any (fun g =>
      (recognize g none "xz").toOption.any fun r =>
        r.failure? == some (.noLexemeMatch 1 ⟨1, 2⟩ []) &&
        (r.run.chart.setAt r.run.furthest).items.all fun it =>
          (r.grammar.structural.next? it).all fun s =>
            r.grammar.structural.lhs? 1 == some s && r.grammar.structural.rhs 1 == []) = true := by
    decide +kernel
  obtain ⟨g, hg, htest⟩ := exists_eq_ok_of_any htest
  obtain ⟨r, hr, htest⟩ := exists_eq_ok_of_any htest
  simp only [Bool.and_eq_true, beq_iff_eq, List.all_eq_true] at htest
  obtain ⟨herror, hitems⟩ := htest
  have hproductive : ∀ it ∈ (r.run.chart.setAt r.run.furthest).items, ∀ s,
      r.grammar.structural.next? it = some s → r.grammar.structural.Productive s := by
    intro it hit s hnext
    have hrule := hitems it hit
    rw [hnext, Option.all_some, Bool.and_eq_true, beq_iff_eq, beq_iff_eq] at hrule
    obtain ⟨hlhs, hrhs⟩ := hrule
    refine ⟨[], .of_rhs hlhs ?_, by simp⟩
    rw [hrhs]
    exact .refl
  obtain ⟨-, -, -, hcompleted, -⟩ :=
    sentence_of_nothing_expected (Or.inl ⟨_, hg⟩) hr herror hproductive
  exact ⟨g, r, hg, hr, herror, hcompleted⟩

/-- An end that has another end in front of it is never there. Nothing else is expected behind a
    letter then, and the start symbol does not end there: the letter is no text. -/
theorem sentence_fails_endless :
    ∃ g r r', (Definition.ending ["end", "'y'"]).compile = .ok g ∧
      recognize g none "xz" = .ok r ∧ r.failure? = some (.noLexemeMatch 1 ⟨1, 2⟩ []) ∧
      r.run.chart.completed r.run.furthest r.grammar.start 0 = [] ∧
      recognize g none "x" = .ok r' ∧ r'.failure? = some .incompleteParse := by
  have htest : (Definition.ending ["end", "'y'"]).compile.toOption.any (fun g =>
      ((recognize g none "xz").toOption.any fun r =>
        r.failure? == some (.noLexemeMatch 1 ⟨1, 2⟩ []) &&
        r.run.chart.completed r.run.furthest r.grammar.start 0 == []) &&
      (recognize g none "x").toOption.any fun r =>
        r.failure? == some .incompleteParse) = true := by
    decide +kernel
  obtain ⟨g, hg, htest⟩ := exists_eq_ok_of_any htest
  rw [Bool.and_eq_true] at htest
  obtain ⟨r, hr, htest'⟩ := exists_eq_ok_of_any htest.1
  obtain ⟨r', hr', herror'⟩ := exists_eq_ok_of_any htest.2
  rw [Bool.and_eq_true, beq_iff_eq, beq_iff_eq] at htest'
  exact ⟨g, r, r', hg, hr, htest'.1, htest'.2, hr', beq_iff_eq.mp herror'⟩

end Scannerless
