import Scannerless.Proofs.Grammar.Compiled
import Scannerless.Proofs.Grammar.Denotation

/-!
# What the lexemes of a grammar match

The symbols that an accepted list of statements gives to lexical names match what the names
denote, and so do the lexemes that it makes of the terminals of structural rules, of
separators and of discard statements. As the statement is about all of them together, no
element changes what another one matches.

## Main definitions

- `Statement.elements` — the elements that a statement writes among lexemes.
- `Grammar.StandsFor` — the symbol of a spelling among lexemes.

## Main statements

- `RuleAdverbs.separator_of_read` — an alternative has one separator, and is a sequence then.
- `Draft.Lowers.exists_standsFor` — the symbols of such elements occur in rules.
- `lexical_exact` — names and terminals match what they denote.
-/

namespace Scannerless

open scoped Computability

/-- The elements that stand between the items of an alternative. -/
def Alternative.separators (alt : Alternative) : List String :=
  (alt.adverbs.filter (·.name == "separator")).map (·.value)

/-- The elements that a statement writes among lexemes: what is discarded, what stands in
    the right sides of structural rules, and separators. -/
def Statement.elements : Statement → List String
  | .discard element _ => [element]
  | .structural _ tiers _ =>
    tiers.flatten.flatMap fun alt => alt.rhs.map (·.element) ++ alt.separators
  | _ => []

/-! ### Separators -/

theorem repeatedAdverb?_eq_none {names : List String} {adverbs : List Adverb} :
    repeatedAdverb? names adverbs = none ↔
      (∀ a ∈ adverbs, a.name ∉ names) ∧ (adverbs.map (·.name)).Nodup := by
  induction adverbs generalizing names with
  | nil => simp [repeatedAdverb?]
  | cons a adverbs ih =>
    rw [repeatedAdverb?]
    split
    next hrepeated => simpa using fun h _ => absurd (by simpa using hrepeated) h
    next hnew =>
      rw [ih]
      simp only [List.contains_iff_mem, List.mem_cons, not_or, forall_eq_or_imp, List.map_cons,
        List.nodup_cons, List.mem_map, not_exists, not_and] at hnew ⊢
      constructor
      · rintro ⟨hrest, hnodup⟩
        exact ⟨⟨hnew, fun x hx => (hrest x hx).2⟩, fun x hx => (hrest x hx).1, hnodup⟩
      · rintro ⟨⟨-, hrest⟩, hdistinct, hnodup⟩
        exact ⟨fun x hx => ⟨hdistinct x hx, hrest x hx⟩, hnodup⟩

namespace RuleAdverbs

variable {sequence : Bool} {r r' : RuleAdverbs} {a : Adverb} {adverbs : List Adverb}

/-- An adverb is allowed for its place, and only the separator changes the separator. -/
theorem separator_of_add (h : add sequence r a = .ok r') :
    if a.name = "separator" then sequence = true ∧ r'.separator = some (a.value, a.offset)
    else r'.separator = r.separator := by
  have hmap {α : Type} {x : Except Fault α} {f : α → RuleAdverbs} (h : x.map f = .ok r')
      (hf : ∀ v, (f v).separator = r.separator) : r'.separator = r.separator := by
    cases x with
    | error fault => cases h
    | ok v =>
      obtain rfl := Except.ok.inj h
      exact hf v
  by_cases hname : a.name = "separator"
  · rw [if_pos hname]
    simp only [add, hname] at h
    cases sequence with
    | true =>
      obtain rfl := Except.ok.inj h
      exact ⟨rfl, rfl⟩
    | false => cases h
  · rw [if_neg hname]
    rw [add] at h
    split_ifs at h
    · obtain rfl := Except.ok.inj h
      rfl
    · exact hmap h fun _ => rfl
    · exact hmap h fun _ => rfl
    next hseparator => exact absurd (eq_of_beq hseparator) hname
    · exact hmap h fun _ => rfl
    · exact hmap h fun _ => rfl

theorem separator_of_foldlM (h : adverbs.foldlM (add sequence) r = .ok r')
    (hnone : ∀ a ∈ adverbs, a.name ≠ "separator") : r'.separator = r.separator := by
  induction adverbs generalizing r with
  | nil =>
    obtain rfl := Except.ok.inj h
    rfl
  | cons a adverbs ih =>
    rw [List.foldlM_cons, bind_eq_ok_iff] at h
    obtain ⟨r₁, hadd, hrest⟩ := h
    rw [List.forall_mem_cons] at hnone
    have hsame := separator_of_add hadd
    rw [if_neg hnone.1] at hsame
    rw [ih hrest hnone.2, hsame]

/-- A separator belongs to a sequence, and it is the only one. -/
theorem separator_of_read (h : read sequence adverbs = .ok r) (ha : a ∈ adverbs)
    (hname : a.name = "separator") :
    sequence = true ∧ r.separator = some (a.value, a.offset) := by
  obtain ⟨_, hdistinct, h⟩ := bind_eq_ok_iff.mp h
  have hnodup : (adverbs.map (·.name)).Nodup := by
    rw [requireDistinct] at hdistinct
    split at hdistinct
    · cases hdistinct
    next hnone => exact (repeatedAdverb?_eq_none.mp hnone).2
  clear hdistinct
  obtain ⟨before, after, rfl⟩ := List.append_of_mem ha
  obtain ⟨r₁, -, h⟩ : ∃ r₁, before.foldlM (add sequence) initial = .ok r₁ ∧
      (a :: after).foldlM (add sequence) r₁ = .ok r := by
    rwa [List.foldlM_append, bind_eq_ok_iff] at h
  rw [List.foldlM_cons, bind_eq_ok_iff] at h
  obtain ⟨r₂, hadd, hafter⟩ := h
  have hseparator := separator_of_add hadd
  rw [if_pos hname] at hseparator
  refine ⟨hseparator.1, ?_⟩
  rw [separator_of_foldlM hafter fun x hx hx' => ?_, hseparator.2]
  -- A second separator would repeat its name.
  rw [List.map_append, List.map_cons, List.nodup_append] at hnodup
  have hdistinct := (List.nodup_cons.mp hnodup.2.1).1
  rw [hname, ← hx'] at hdistinct
  exact hdistinct (List.mem_map_of_mem hx)

end RuleAdverbs

/-! ### Occurrences -/

/-- What is not an operand keeps its symbol. -/
theorem mem_placeOperands {a : Associativity} {lhs current tighter s : SymbolId} {isFirst : Bool}
    {operands : List Bool} {rhs : List SymbolId} (h : (false, s) ∈ operands.zip rhs) :
    s ∈ placeOperands a lhs current tighter isFirst operands rhs := by
  induction operands generalizing isFirst rhs with
  | nil => cases h
  | cons operand operands ih =>
    cases rhs with
    | nil => cases h
    | cons x rhs =>
      rw [List.zip_cons_cons, List.mem_cons] at h
      cases operand with
      | true =>
        rw [placeOperands]
        rcases h with h | h
        · cases h
        · exact List.mem_cons_of_mem _ (ih h)
      | false =>
        rw [placeOperands]
        rcases h with h | h
        · obtain ⟨-, rfl⟩ := Prod.mk.inj h
          exact List.mem_cons_self
        · exact List.mem_cons_of_mem _ (ih h)

namespace Draft

variable {o : Outline} {d : Draft} {start stop lhs : SymbolId} {name raw : String}
  {alt : Alternative} {r : Rule}

/-- The symbols of the items of an alternative occur in its rule. -/
theorem PlainRule.exists_standsFor (h : d.PlainRule o lhs name alt r)
    (hraw : raw ∈ alt.rhs.map (·.element)) : ∃ s ∈ r.rhs, d.StandsFor o raw s := by
  obtain ⟨adverbs, rhs, -, hrhs, rfl⟩ := h
  obtain ⟨item, hitem, rfl⟩ := List.mem_map.mp hraw
  exact exists_mem_of_forall₂ hrhs hitem

/-- The symbols of the terminals of an alternative of a tier occur in its rule. -/
theorem TierRule.exists_standsFor {current tighter : SymbolId} {t : Terminal}
    (h : d.TierRule o lhs name current tighter alt r) (hraw : raw ∈ alt.rhs.map (·.element))
    (ht : Element.decode raw = .ok (.terminal t)) : ∃ s ∈ r.rhs, d.StandsFor o raw s := by
  obtain ⟨adverbs, rhs, -, hrhs, rfl⟩ := h
  obtain ⟨item, hitem, rfl⟩ := List.mem_map.mp hraw
  have hoperand : item.isOperand name = false := by
    simp [RhsItem.isOperand, ht]
  suffices hzip : ∃ s, d.StandsFor o item.element s ∧
      (false, s) ∈ (alt.rhs.map (RhsItem.isOperand name)).zip rhs by
    obtain ⟨s, hs, hmem⟩ := hzip
    exact ⟨s, mem_placeOperands hmem, hs⟩
  generalize alt.rhs = items at hrhs hitem
  induction hrhs with
  | nil => cases hitem
  | @cons x s items rhs hx _ ih =>
    rcases List.mem_cons.mp hitem with rfl | hitem
    · exact ⟨s, hx, by simp [hoperand]⟩
    · obtain ⟨s', hs', hmem⟩ := ih hitem
      exact ⟨s', hs', List.mem_cons_of_mem _ hmem⟩

theorem TierRules.exists_rule {tiers : List (List Alternative)} {levels : List SymbolId}
    {rules : List (List Rule)} (h : d.TierRules o lhs name tiers levels rules)
    (hlevels : levels.length = tiers.length) (halt : alt ∈ tiers.flatten) :
    ∃ r ∈ rules.flatten, ∃ current tighter, d.TierRule o lhs name current tighter alt r := by
  obtain ⟨tier, htier, halt⟩ := List.mem_flatten.mp halt
  obtain ⟨p, hp, rfl⟩ := List.getElem_of_mem htier
  have hlt : p < (tiers.zip (levels.zip (levels.take 1 ++ levels))).length := by
    simp only [List.length_zip, List.length_append, hlevels]
    omega
  obtain ⟨rs, hrs, hall⟩ := exists_mem_of_forall₂ h (List.getElem_mem hlt)
  rw [List.getElem_zip] at hall
  obtain ⟨r, hr, hrule⟩ := exists_mem_of_forall₂ hall halt
  exact ⟨r, List.mem_flatten.mpr ⟨rs, hrs, hr⟩, _, _, hrule⟩

/-- The terminals of a structural definition have symbols that occur in its rules. -/
theorem Lowers.exists_standsFor {tiers : List (List Alternative)} {rules : List Rule}
    {t : Terminal} (h : d.Lowers o start stop lhs name tiers rules) (halt : alt ∈ tiers.flatten)
    (hraw : raw ∈ alt.rhs.map (·.element) ++ alt.separators)
    (ht : Element.decode raw = .ok (.terminal t)) :
    ∃ s, d.StandsFor o raw s ∧ ∃ r ∈ rules, s ∈ r.rhs := by
  have hseparator (hraw : raw ∈ alt.separators) : ∃ a ∈ alt.adverbs, a.name = "separator" ∧
      a.value = raw := by
    obtain ⟨a, ha, rfl⟩ := List.mem_map.mp hraw
    obtain ⟨ha, hname⟩ := List.mem_filter.mp ha
    exact ⟨a, ha, eq_of_beq hname, rfl⟩
  cases h with
  | plain _ hrules =>
    rw [List.flatten_singleton] at halt
    obtain ⟨r, hr, hrule⟩ := exists_mem_of_forall₂ hrules halt
    rcases List.mem_append.mp hraw with hraw | hraw
    · obtain ⟨s, hs, hstands⟩ := hrule.exists_standsFor hraw
      exact ⟨s, hstands, r, hr, hs⟩
    · obtain ⟨adverbs, -, hread, -⟩ := hrule
      obtain ⟨a, ha, hname, -⟩ := hseparator hraw
      cases (RuleAdverbs.separator_of_read hread ha hname).1
  | @sequence _ item p hitem hq hparts =>
    obtain rfl := List.mem_singleton.mp (List.flatten_singleton ▸ halt)
    rcases List.mem_append.mp hraw with hraw | hraw
    · rw [hitem, List.map_singleton, List.mem_singleton] at hraw
      subst hraw
      exact ⟨p.element, hparts.element, spliceRule p.items [p.element] name,
        by simp [SequenceParts.rules, SequenceParts.itemRules], List.mem_singleton_self _⟩
    · obtain ⟨a, ha, hname, rfl⟩ := hseparator hraw
      have hadverb := (RuleAdverbs.separator_of_read hparts.adverbs ha hname).2
      have hrel := hparts.separator
      rw [hadverb] at hrel
      obtain ⟨s, hs, hstands⟩ : ∃ s, p.separator = some s ∧ d.StandsFor o a.value s := by
        generalize p.separator = separator at hrel
        cases hrel with
        | some hstands => exact ⟨_, rfl, hstands⟩
      exact ⟨s, hstands, ⟨p.items, [p.items, s, p.element], name, .splice,
        [true, p.adverbs.keep, true], 0⟩,
        by simp [SequenceParts.rules, SequenceParts.itemRules, hs], by simp⟩
  | @tiers _ base rules htiers hstart hstop hrules =>
    obtain ⟨r, hr, current, tighter, hrule⟩ := hrules.exists_rule List.length_range' halt
    rcases List.mem_append.mp hraw with hraw | hraw
    · obtain ⟨s, hs, hstands⟩ := hrule.exists_standsFor hraw ht
      exact ⟨s, hstands, r, List.mem_append_right _ hr, hs⟩
    · obtain ⟨adverbs, -, hread, -⟩ := hrule
      obtain ⟨a, ha, hname, -⟩ := hseparator hraw
      cases (RuleAdverbs.separator_of_read hread ha hname).1

end Draft

namespace Lowered

variable {ss : List Statement} {g : Grammar} {o : Outline} {d : Draft} {raw : String}
  {t : Terminal} {s : SymbolId}

/-- A terminal has the lexeme that consists of it. -/
theorem isTerminal (h : Lowered ss g o d) (hs : d.StandsFor o raw s)
    (ht : Element.decode raw = .ok (.terminal t)) : d.IsTerminal t s :=
  (h.orderly.isTerminal ⟨raw, ht⟩ (hs.lookup ht)).2

/-- A terminal among lexemes has a symbol that is discarded or occurs in a rule. -/
theorem exists_terminal (h : Lowered ss g o d) {x : Statement} (hx : x ∈ ss)
    (hraw : raw ∈ x.elements) (ht : Element.decode raw = .ok (.terminal t)) :
    ∃ s, d.IsTerminal t s ∧ (s ∈ g.discards ∨ ∃ r ∈ g.structural.rules, s ∈ r.rhs) := by
  cases x with
  | discard element offset =>
    obtain rfl := List.mem_singleton.mp hraw
    obtain ⟨s, hs, hstands⟩ := h.discards hx
    exact ⟨s, h.isTerminal hstands ht, Or.inl hs⟩
  | structural spelling tiers offset =>
    obtain ⟨alt, halt, hraw⟩ := List.mem_flatMap.mp hraw
    obtain ⟨before, after, hss⟩ := List.append_of_mem hx
    obtain ⟨f, hf, -⟩ := h.exists_footprint hss
    obtain ⟨s, hstands, r, hr, hs⟩ := hf.lowers.exists_standsFor halt hraw ht
    refine ⟨s, h.isTerminal hstands ht, Or.inr ⟨r, ?_, hs⟩⟩
    obtain ⟨id, -, hid⟩ := hf.mem_rules_iff.mpr hr
    exact Array.mem_of_getElem? hid
  | _ => cases hraw

/-- A symbol that is the one of its name matches what the lexical definition of the name
    denotes. -/
theorem matches_iff_of_name (h : Lowered ss g o d) (hs : g.findSymbol? (g.name s) = some s)
    (hx : ∃ x ∈ ss, x.lexicalName? = some (g.name s)) (text : List Char) :
    g.Matches s text ↔ text ∈ lexicalLanguage ss (g.name s) := by
  obtain ⟨id, hid⟩ := Outline.isLexical_iff.mp
    (((Outline.lists_of_ofStatements h.outline).lexical (g.name s)).mpr hx)
  have hfound := (h.findSymbol?_of_lexicalId? hid).symm.trans hs
  obtain rfl := Option.some_inj.mp hfound
  exact h.drafted.matches_iff hid text

/-- If lexemes are told by their names, the one with the name of a terminal that is written
    matches what the terminal denotes. -/
theorem matches_iff_of_spelling (h : Lowered ss g o d)
    (hunique : ∀ s, g.kind? s = some .lexeme → g.findSymbol? (g.name s) = some s)
    (hs : g.kind? s = some .lexeme) (hx : ∃ x ∈ ss, raw ∈ x.elements)
    (ht : Element.decode raw = .ok (.terminal t)) (hspelling : t.spelling = g.name s)
    (text : List Char) : g.Matches s text ↔ text ∈ t.language := by
  obtain ⟨x, hx, hraw⟩ := hx
  obtain ⟨id, hid, -⟩ := h.exists_terminal hx hraw ht
  have hsymbol : g.symbols[id]? = some ⟨g.name s, .lexeme⟩ := by
    rw [h.tables.1, hid.1, hspelling]
  have hidname : g.name id = g.name s := by
    rw [Grammar.name, hsymbol]
  have hfound := hunique id (by rw [Grammar.kind?, hsymbol, Option.map_some])
  rw [hidname, hunique s hs] at hfound
  obtain rfl := Option.some_inj.mp hfound
  exact h.drafted.matches_terminal_iff hid text

end Lowered

/-! ### The symbols of spellings -/

/-- A spelling among lexemes stands for the symbol of its name, or for a lexeme that matches
    what its terminal denotes. -/
def Grammar.StandsFor (g : Grammar) (raw : String) (s : SymbolId) : Prop :=
  match Element.decode raw with
  | .ok (.name name) => g.findSymbol? name = some s
  | .ok (.terminal t) => g.symbols[s]? = some ⟨t.spelling, .lexeme⟩ ∧
      ∀ text, g.Matches s text ↔ text ∈ t.language
  | .error _ => False

namespace Lowered

variable {ss : List Statement} {g : Grammar} {o : Outline} {d : Draft} {raw : String}
  {s : SymbolId}

theorem standsFor (h : Lowered ss g o d) (hs : d.StandsFor o raw s) : g.StandsFor raw s := by
  have hterminal := fun t => h.isTerminal (t := t) hs
  obtain ⟨e, he, hstands⟩ := hs
  rw [Grammar.StandsFor, he]
  cases hstands with
  | structural hid => exact h.findSymbol?_of_structuralId? hid
  | lexical _ hid => exact h.findSymbol?_of_lexicalId? hid
  | terminal _ _ =>
    refine ⟨?_, h.drafted.matches_terminal_iff (hterminal _ he)⟩
    rw [h.tables.1]
    exact (hterminal _ he).1

/-- A name that has no structural rules, or the lexeme of a terminal, has none. -/
theorem hasRules_eq_false (h : Lowered ss g o d) (hs : d.StandsFor o raw s)
    (hname : o.structural.length ≤ s) : g.structural.hasRules s = false := by
  refine Bool.eq_false_iff.mpr fun hrules => ?_
  obtain ⟨id, hid⟩ := RuleTable.exists_mem_rulesFor hrules
  have hkind := h.coherent.structural_lhs id s ((h.coherent.structural s id).mp hid)
  rw [Grammar.kind?, h.tables.1] at hkind
  have hterminal := fun t => h.isTerminal (t := t) hs
  obtain ⟨e, he, hstands⟩ := hs
  cases hstands with
  | structural hid => exact Nat.not_lt_of_le hname (Plan.structuralId?_lt hid)
  | lexical _ hid =>
    obtain ⟨i, offset, hi, rfl⟩ := Outline.lexicalId?_eq_some hid
    obtain ⟨k, hk, hcases⟩ := h.orderly.lexicalName i _ hi
    rw [hk] at hkind
    rcases hcases with rfl | rfl <;> cases hkind
  | terminal _ _ =>
    rw [(hterminal _ he).1] at hkind
    cases hkind

/-- What is written among lexemes passes single values on. -/
theorem exists_passesOn (h : Lowered ss g o d) :
    ∃ tiers, g.structural.PassesOn tiers ∧ ∀ raw s, d.StandsFor o raw s → tiers s := by
  obtain ⟨p, hdraft, hp, -, -⟩ := Plan.statements_leads (Plan.valid_ofOutline o) ss _ d h.draft
  refine ⟨fun s => p.tiers s ∨ g.structural.hasRules s = false, fun id r hr htier hsplice => ?_,
    fun raw s hs => ?_⟩
  · have hlhs : g.structural.lhs? id = some r.lhs := by
      rw [RuleTable.lhs?]
      exact Option.map_eq_some_iff.mpr ⟨r, hr, rfl⟩
    have htier : p.tiers r.lhs := by
      refine htier.resolve_right fun hnone => ?_
      rw [h.coherent.structural.hasRules_of_lhs hlhs] at hnone
      cases hnone
    have hmem : r ∈ p.draft.structural.toList := by
      rw [RuleTable.rule?, h.tables.2.1] at hr
      rw [hdraft]
      exact Array.mem_toList_iff.mpr (Array.mem_of_getElem? hr)
    obtain ⟨s, hrhs, hmask, hs⟩ := hp.passesOn r hmem htier hsplice
    exact ⟨s, hrhs, hmask, Or.inl hs⟩
  · by_cases hlt : s < o.structural.length
    · exact Or.inl (hp.structuralNames s hlt).2
    · exact Or.inr (h.hasRules_eq_false hs (Nat.le_of_not_lt hlt))

end Lowered

/-! ### Exactness -/

/-- The symbol of a lexical name of an accepted grammar matches what the name denotes: the
    union of its alternatives in all statements, in the least languages for which this holds of
    all names. A terminal among lexemes has a lexeme, which matches what the terminal
    denotes. -/
theorem lexical_exact {ss : List Statement} {description : String} {g : Grammar}
    (h : Grammar.ofStatements ss description = .ok g) :
    (∀ name, lexicalLanguage ss name = declaredLanguage (lexicalLanguage ss) ss name) ∧
    (∀ s ∈ ss, ∀ name, s.lexicalName? = some name → ∃ id, g.findSymbol? name = some id ∧
      ∀ text, g.Matches id text ↔ text ∈ lexicalLanguage ss name) ∧
    ∀ s ∈ ss, ∀ raw ∈ s.elements, ∀ t, Element.decode raw = .ok (.terminal t) →
      ∃ id, g.symbols[id]? = some ⟨t.spelling, .lexeme⟩ ∧
        (id ∈ g.discards ∨ ∃ r ∈ g.structural.rules, id ∈ r.rhs) ∧
        ∀ text, g.Matches id text ↔ text ∈ t.language := by
  obtain ⟨o, d, hlowered⟩ := Lowered.exists_of_ofStatements h
  refine ⟨lexicalLanguage_eq ss, fun s hs name hname => ?_, fun s hs raw hraw t ht => ?_⟩
  · obtain ⟨id, hid⟩ : ∃ id, o.lexicalId? name = some id := by
      rw [← Outline.isLexical_iff, (Outline.lists_of_ofStatements hlowered.outline).lexical]
      exact ⟨s, hs, hname⟩
    exact ⟨id, hlowered.findSymbol?_of_lexicalId? hid, hlowered.drafted.matches_iff hid⟩
  · obtain ⟨id, hid, hplace⟩ := hlowered.exists_terminal hs hraw ht
    refine ⟨id, ?_, hplace, hlowered.drafted.matches_terminal_iff hid⟩
    rw [hlowered.tables.1]
    exact hid.1

/-- Words are made of one letter or more. -/
theorem lexical_exact_words :
    ∃ g, Grammar.ofStatements Definition.words.statements "words" = .ok g ∧
      ∃ id, g.findSymbol? "word" = some id ∧
        ∀ text, g.Matches id text ↔ text ∈ ({['a']} * {['a']}∗ : Language Char) := by
  have haccepted : (Grammar.ofStatements Definition.words.statements "words").toOption.any
      (fun _ => true) = true := by
    decide +kernel
  obtain ⟨g, hg, -⟩ := exists_eq_ok_of_any haccepted
  obtain ⟨heq, hnames, -⟩ := lexical_exact hg
  obtain ⟨id, hid, hmatches⟩ :=
    hnames (.lexeme "word" ["'a'+"]) (by simp [Definition.words]) "word" (by decide +kernel)
  refine ⟨g, hg, id, hid, fun text => ?_⟩
  have halternatives : lexicalAlternatives Definition.words.statements "word" =
      [⟨[⟨"'a'", .plus, 0⟩], [], 0⟩] := by
    decide +kernel
  have hdecode : Element.decode "'a'" = .ok (.terminal (.literal ['a'])) := by
    decide +kernel
  rw [hmatches, heq, declaredLanguage, halternatives]
  simp [Alternative.language, RhsItem.language, hdecode, Quantifier.language, Element.language,
    Terminal.language]

end Scannerless
