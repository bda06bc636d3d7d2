import Scannerless.Proofs.Grammar.Checks
import Scannerless.Proofs.Grammar.Declarations

/-!
# Repeated rules

An alternative that is written again is found out wherever the rule that it would get is declared
with the symbols of its elements. That is not so everywhere: a sequence is not declared, an element
of a lexical rule with a quantifier has a new symbol each time, and the operands of a tier have the
symbols of the tiers that their associativity admits.

## Main definitions

- `Statement.Defines` — a statement defines a name.
- `Repeats` — a name is given an alternative again.

## Main statements

- `Drafting.not_statements_of_repeats` — the passes do not run over a repetition.
- `compile_of_repeats` — a grammar that repeats a rule is refused.
-/

namespace Scannerless

/-- A statement defines a name on a level, its alternatives standing in tiers. Those of a lexical
    statement are one tier. -/
inductive Statement.Defines (name : String) : Level → List (List Alternative) → Statement → Prop
  where
  | structural {lhs : String} {tiers : List (List Alternative)} {offset : Nat}
      (h : Element.decode lhs = .ok (.name name)) :
      Defines name .structural tiers (.structural lhs tiers offset)
  | lexical {lhs : String} {alternatives : List Alternative} {offset : Nat}
      (h : Element.decode lhs = .ok (.name name)) :
      Defines name .lexical [alternatives] (.lexical lhs alternatives offset)

/-- A name is given an alternative, and then another one where the two would be declared with the
    same symbols if they have the same items. -/
inductive Repeats (ss : List Statement) (level : Level) (name : String) (a b : Alternative) : Prop
  where
  /-- They stand in one tier of a statement. If there are other tiers, the operands have the same
      limits. -/
  | together {s : Statement} {tiers : List (List Alternative)} {tier : Nat}
      {alternatives : List Alternative} (hs : s ∈ ss) (hdefines : s.Defines name level tiers)
      (htier : tiers[tier]? = some alternatives) (hboth : [a, b].Sublist alternatives)
      (hlimits : tiers.length ≠ 1 → a.SameLimits name tier b)
  /-- They stand in two statements, which are not both the definition of a sequence. -/
  | apart {s s' : Statement} {tiers tiers' : List (List Alternative)}
      (hss : [s, s'].Sublist ss) (hdefines : s.Defines name level tiers)
      (hdefines' : s'.Defines name level tiers') (ha : a ∈ tiers.flatten)
      (hb : b ∈ tiers'.flatten)
      (hsequence : ¬(tiers = [[a]] ∧ tiers' = [[b]] ∧ a.IsSequence))

variable {o : Outline} {name : String} {a b : Alternative} {level : Level}

theorem Statement.Defines.eq_singleton {s : Statement} {tiers : List (List Alternative)}
    (h : s.Defines name .lexical tiers) : ∃ alternatives, tiers = [alternatives] := by
  cases h with
  | lexical _ => exact ⟨_, rfl⟩

theorem Repeats.exists_defines {ss : List Statement} (h : Repeats ss level name a b) :
    ∃ s ∈ ss, ∃ tiers, s.Defines name level tiers := by
  cases h with
  | together hs hdefines _ _ _ => exact ⟨_, hs, _, hdefines⟩
  | apart hss hdefines _ _ _ _ => exact ⟨_, hss.subset List.mem_cons_self, _, hdefines⟩

namespace Drafting

variable {d d' : Draft} {lhs : SymbolId} {alt : Alternative} {offset : Nat} {u : Unit}

/-! ### Statements -/

variable {ss : List Statement} {spelling : String}

/-- An alternative is plain, or it is a sequence and the only one of its definition. -/
theorem alternative_cases {alone : Bool}
    (h : (alternative o lhs name alone alt).run d = .ok (u, d')) :
    (alt.IsPlain ∧ (plainAlternative o lhs name alt).run d = .ok (u, d')) ∨
      (alone = true ∧ alt.IsSequence) := by
  cases hfind : alt.rhs.find? (fun item => item.quantifier != .one) with
  | none =>
    rw [alternative, hfind] at h
    exact Or.inl ⟨fun item hitem => by simpa using List.find?_eq_none.mp hfind item hitem, h⟩
  | some item =>
    obtain ⟨halone, hitem, hq, -⟩ := quantified_alternative_run h hfind
    exact Or.inr ⟨halone, item, hitem, hq⟩

/-- A structural definition runs its alternatives, or its tiers. -/
theorem structural_cases {tiers : List (List Alternative)}
    (hname : Element.decode spelling = .ok (.name name)) (hid : o.structuralId? name = some lhs)
    (h : (structural o spelling tiers offset).run d = .ok (u, d')) :
    (∃ alternatives, tiers = [alternatives] ∧
      (alternatives.forM (alternative o lhs name (alternatives.length == 1))).run d =
        .ok (u, d')) ∨
      tiers.length ≠ 1 ∧ (precedence o lhs name tiers).run d = .ok (u, d') := by
  obtain ⟨name', d₁, hlift, h⟩ := run_bind.mp h
  obtain ⟨hdecode, rfl⟩ := run_lift.mp hlift
  rw [Element.decodeNameAt_eq_ok, hname] at hdecode
  obtain rfl := Element.name.inj (Except.ok.inj hdecode)
  simp only [hid] at h
  split at h
  next => exact Or.inl ⟨_, rfl, h⟩
  next hlength =>
    refine Or.inr ⟨fun hone => ?_, h⟩
    obtain ⟨alternatives, rfl⟩ := List.length_eq_one_iff.mp hone
    exact hlength alternatives rfl

theorem lexical_alternatives {alternatives : List Alternative}
    (hname : Element.decode spelling = .ok (.name name)) (hid : o.lexicalId? name = some lhs)
    (h : (lexical o spelling alternatives offset).run d = .ok (u, d')) :
    (alternatives.forM (lexicalAlternative o lhs name)).run d = .ok (u, d') := by
  obtain ⟨name', d₁, hlift, h⟩ := run_bind.mp h
  obtain ⟨hdecode, rfl⟩ := run_lift.mp hlift
  rw [Element.decodeNameAt_eq_ok, hname] at hdecode
  obtain rfl := Element.name.inj (Except.ok.inj hdecode)
  simpa only [hid] using h

/-- The alternatives of a tier run with its symbol and that of the next one. The tightest tier is
    next to itself. -/
theorem exists_run_of_precedence {tiers : List (List Alternative)} {tier : Nat}
    {alternatives : List Alternative} (h : (precedence o lhs name tiers).run d = .ok (u, d'))
    (htier : tiers[tier]? = some alternatives) :
    ∃ current tighter e e', (tier = 0 → tighter = current) ∧
      (alternatives.forM (tierAlternative o lhs name current tighter)).run e = .ok ((), e') := by
  obtain ⟨d₀, d₀, hget, h⟩ := run_bind.mp h
  obtain ⟨rfl, rfl⟩ := run_get.mp hget
  obtain ⟨levels, d₁, hlevels, h⟩ := run_bind.mp h
  obtain ⟨_, d₂, -, h⟩ := run_bind.mp h
  obtain ⟨_, d₃, -, h⟩ := run_bind.mp h
  have hlength : levels.length = (List.range tiers.length).length := by
    apply mapM_induction (P := fun ps levels _ => levels.length = ps.length) hlevels
    · rfl
    · rintro ps levels p level e e' - hlength -
      rw [List.length_append, List.length_append, hlength]
      rfl
  rw [List.length_range] at hlength
  obtain ⟨hlt, -⟩ := List.getElem?_eq_some_iff.mp htier
  rw [← hlength] at hlt
  have hlt' : tier < (levels.take 1 ++ levels).length := by
    rw [List.length_append]
    omega
  have hmem : (alternatives, levels[tier], (levels.take 1 ++ levels)[tier]) ∈
      tiers.zip (levels.zip (levels.take 1 ++ levels)) := by
    refine List.mem_of_getElem? (i := tier) ?_
    rw [List.getElem?_zip_eq_some, List.getElem?_zip_eq_some]
    exact ⟨htier, List.getElem?_eq_getElem hlt, List.getElem?_eq_getElem hlt'⟩
  obtain ⟨e, e', hrun⟩ := exists_run_of_mem h hmem
  refine ⟨_, _, e, e', ?_, hrun⟩
  rintro rfl
  rw [List.getElem_append_left (by rw [List.length_take]; omega), List.getElem_take]

/-- A step of the structural pass runs within the step of its statement. -/
theorem Within.of_structuralStatement {s : Statement} {alternatives : List Alternative}
    (hdefines : s.Defines name .structural [alternatives]) (hid : o.structuralId? name = some lhs)
    (h : Within (structuralStatement o s) d d') (halt : alt ∈ alternatives) :
    Within (alternative o lhs name (alternatives.length == 1) alt) d d' := by
  obtain ⟨e, e', hrun, he, he'⟩ := h
  cases hdefines with
  | @structural spelling _ offset hname =>
    replace hrun : (structural o spelling [alternatives] offset).run e = .ok ((), e') := hrun
    rcases structural_cases hname hid hrun with ⟨_, hsingle, hrun⟩ | ⟨hlength, -⟩
    · obtain rfl := List.singleton_inj.mp hsingle
      have hwithin : Within (alternatives.forM
          (alternative o lhs name (alternatives.length == 1))) d d' := ⟨e, e', hrun, he, he'⟩
      exact hwithin.of_mem (fun alt _ => alternative_keeps lhs name _ fun _ _ => trivial) halt
    · exact absurd rfl hlength

/-- An alternative with a quantifier is alone, and a sequence. -/
theorem Within.isSequence {alternatives : List Alternative}
    (h : Within (alternative o lhs name (alternatives.length == 1) alt) d d')
    (halt : alt ∈ alternatives) (hplain : ¬alt.IsPlain) :
    alternatives = [alt] ∧ alt.IsSequence := by
  obtain ⟨e, e', hrun, -, -⟩ := h
  rcases alternative_cases hrun with ⟨hcontra, -⟩ | ⟨halone, hsequence⟩
  · exact absurd hcontra hplain
  · obtain ⟨x, rfl⟩ := List.length_eq_one_iff.mp (eq_of_beq halone)
    rw [List.mem_singleton.mp halt] at hsequence ⊢
    exact ⟨rfl, hsequence⟩

theorem Within.of_lexicalStatement {s : Statement} {alternatives : List Alternative}
    (hdefines : s.Defines name .lexical [alternatives]) (hid : o.lexicalId? name = some lhs)
    (h : Within (lexicalStatement o s) d d') (halt : alt ∈ alternatives) :
    Within (lexicalAlternative o lhs name alt) d d' := by
  obtain ⟨e, e', hrun, he, he'⟩ := h
  cases hdefines with
  | @lexical spelling _ offset hname =>
    replace hrun : (lexical o spelling alternatives offset).run e = .ok ((), e') := hrun
    have hwithin : Within (alternatives.forM (lexicalAlternative o lhs name)) d d' :=
      ⟨e, e', lexical_alternatives hname hid hrun, he, he'⟩
    exact hwithin.of_mem (fun alt _ => lexicalAlternative_keeps lhs name fun _ _ => trivial) halt

/-! ### Repetitions -/

/-- No two alternatives of definitions without tiers have the same items. -/
theorem not_within_alternative_twice {alone alone' : Bool} {e : Draft} (halike : a.Alike b)
    (ha : a.IsPlain) (h : Within (alternative o lhs name alone a) d e) :
    ¬Within (alternative o lhs name alone' b) e d' := by
  have hdeclares {alt : Alternative} {alone : Bool} (halt : alt.IsPlain) {d d' : Draft}
      (h : (alternative o lhs name alone alt).run d = .ok ((), d')) :
      d.Declares .structural lhs (alt.HasSymbols o) d' := by
    rcases alternative_cases h with ⟨-, hrun⟩ | ⟨-, hsequence⟩
    · exact declares_of_plainAlternative hrun
    · exact absurd halt hsequence.not_isPlain
  exact not_within_twice (hdeclares ha) (hdeclares (halike.isPlain ha))
    (alternative_keeps lhs name alone' fun _ _ => trivial) Alternative.HasSymbols.retains
    (Alternative.HasSymbols.unique halike) h

/-- No two alternatives of a lexical name have the same items, none of which has a quantifier. -/
theorem not_within_lexicalAlternative_twice {e : Draft} (halike : a.Alike b) (ha : a.IsPlain)
    (h : Within (lexicalAlternative o lhs name a) d e) :
    ¬Within (lexicalAlternative o lhs name b) e d' :=
  not_within_twice (declares_of_lexicalAlternative ha)
    (declares_of_lexicalAlternative (halike.isPlain ha))
    (lexicalAlternative_keeps lhs name fun _ _ => trivial) Alternative.HasCharacters.retains
    (Alternative.HasCharacters.unique halike) h

/-- No two alternatives of a tier have the same items, with operands of the same limits. -/
theorem not_within_tierAlternative_twice {current tighter : SymbolId} {tier : Nat} {e : Draft}
    (halike : a.Alike b) (hlimits : a.SameLimits name tier b) (hzero : tier = 0 → tighter = current)
    (h : Within (tierAlternative o lhs name current tighter a) d e) :
    ¬Within (tierAlternative o lhs name current tighter b) e d' :=
  not_within_twice declares_of_tierAlternative declares_of_tierAlternative
    (tierAlternative_keeps lhs name current tighter fun _ _ => trivial)
    Alternative.HasTierSymbols.retains
    (Alternative.HasTierSymbols.unique halike hlimits hzero) h

/-- No structural definition has an alternative twice in one tier. -/
theorem not_structural_of_repeated {tiers : List (List Alternative)} {tier : Nat}
    {alternatives : List Alternative} (hname : Element.decode spelling = .ok (.name name))
    (hid : o.structuralId? name = some lhs) (htier : tiers[tier]? = some alternatives)
    (hboth : [a, b].Sublist alternatives) (halike : a.Alike b)
    (hlimits : tiers.length ≠ 1 → a.SameLimits name tier b) :
    ¬(structural o spelling tiers offset).run d = .ok (u, d') := by
  intro h
  rcases structural_cases hname hid h with ⟨alternatives', rfl, hrun⟩ | ⟨hlength, hrun⟩
  · obtain rfl : alternatives' = alternatives :=
      List.mem_singleton.mp (List.mem_of_getElem? htier) |>.symm
    have halone : (alternatives'.length == 1) = false := by
      have hlength := hboth.length_le
      simp only [List.length_cons, List.length_nil] at hlength
      rw [beq_eq_false_iff_ne]
      omega
    rw [halone] at hrun
    obtain ⟨e, ha, hb⟩ := exists_within_of_sublist
      (fun alt _ => alternative_keeps (o := o) lhs name false fun _ _ => trivial) hrun hboth
    have hplain : a.IsPlain := by
      obtain ⟨e₁, e₁', hrun, -, -⟩ := ha
      rcases alternative_cases hrun with ⟨hplain, -⟩ | ⟨hfalse, -⟩
      · exact hplain
      · cases hfalse
    exact not_within_alternative_twice halike hplain ha hb
  · obtain ⟨current, tighter, e, e', hzero, hrun⟩ := exists_run_of_precedence hrun htier
    obtain ⟨e₁, ha, hb⟩ := exists_within_of_sublist
      (fun alt _ => tierAlternative_keeps (o := o) lhs name current tighter fun _ _ => trivial)
      hrun hboth
    exact not_within_tierAlternative_twice halike (hlimits hlength) hzero ha hb

end Drafting

/-- A name that two statements define is not defined in tiers. -/
theorem Outline.Lists.eq_singleton_of_sublist {ss : List Statement} {s s' : Statement}
    {tiers tiers' : List (List Alternative)} (ho : o.Lists ss) (hss : [s, s'].Sublist ss)
    (hs : s.Defines name .structural tiers) (hs' : s'.Defines name .structural tiers') :
    (∀ alternatives ∈ tiers, tiers = [alternatives]) ∧
      ∀ alternatives ∈ tiers', tiers' = [alternatives] := by
  have hname {s : Statement} {tiers : List (List Alternative)}
      (hs : s.Defines name .structural tiers) : s.structuralName? = some name := by
    cases hs with
    | structural h => exact Outline.structural_name h
  -- A name that is defined in tiers has one definition, and this one has two.
  have hnot : o.prioritized.contains name ≠ true := by
    intro hprioritized
    have hfilter := hss.filter fun s => s.structuralName? == some name
    rw [List.filter_cons_of_pos (by simp [hname hs]), List.filter_cons_of_pos (by simp [hname hs'])]
      at hfilter
    have hlength := hfilter.length_le
    rw [ho.unique name hprioritized] at hlength
    simp at hlength
  have hone {s : Statement} {tiers : List (List Alternative)} (hmem : s ∈ ss)
      (hs : s.Defines name .structural tiers) : ∀ alternatives ∈ tiers, tiers = [alternatives] := by
    intro alternatives halternatives
    have hle : tiers.length ≤ 1 := by
      by_contra hlt
      refine hnot (ho.prioritized s hmem ?_ name (hname hs))
      cases hs with
      | structural _ => exact decide_eq_true (Nat.lt_of_not_le hlt)
    obtain ⟨x, rfl⟩ :=
      List.length_eq_one_iff.mp (Nat.le_antisymm hle (List.length_pos_of_mem halternatives))
    rw [List.mem_singleton.mp halternatives]
  exact ⟨hone (hss.subset List.mem_cons_self) hs,
    hone (hss.subset (List.mem_cons_of_mem s List.mem_cons_self)) hs'⟩

namespace Drafting

variable {ss : List Statement} {d d' : Draft} {u : Unit} {lhs : SymbolId}

/-- The structural pass does not run over a repetition. -/
theorem not_structuralPass_of_repeats (ho : o.Lists ss) (hid : o.structuralId? name = some lhs)
    (h : Repeats ss .structural name a b) (halike : a.Alike b) :
    ¬(ss.forM (structuralStatement o)).run d = .ok (u, d') := by
  intro hrun
  cases h with
  | together hs hdefines htier hboth hlimits =>
    obtain ⟨e, e', hrun⟩ := exists_run_of_mem hrun hs
    cases hdefines with
    | structural hname =>
      exact not_structural_of_repeated hname hid htier hboth halike hlimits hrun
  | @apart s s' tiers tiers' hss hdefines hdefines' hmem hmem' hsequence =>
    obtain ⟨hone, hone'⟩ := ho.eq_singleton_of_sublist hss hdefines hdefines'
    obtain ⟨alternatives, halternatives, ha⟩ := List.mem_flatten.mp hmem
    obtain ⟨alternatives', halternatives', hb⟩ := List.mem_flatten.mp hmem'
    obtain rfl := hone alternatives halternatives
    obtain rfl := hone' alternatives' halternatives'
    have hkeeps (s : Statement) : (structuralStatement o s).Keeps o fun _ => True :=
      structuralStatement_keeps trivial fun _ _ => trivial
    obtain ⟨e, hs, hs'⟩ := exists_within_of_sublist (fun s _ => hkeeps s) hrun hss
    have hwithin := hs.of_structuralStatement hdefines hid ha
    have hwithin' := hs'.of_structuralStatement hdefines' hid hb
    by_cases hplain : a.IsPlain
    · exact not_within_alternative_twice halike hplain hwithin hwithin'
    · obtain ⟨halone, hmany⟩ := hwithin.isSequence ha hplain
      obtain ⟨halone', -⟩ := hwithin'.isSequence hb fun hb => hplain (halike.symm.isPlain hb)
      exact hsequence ⟨congrArg (List.cons · []) halone, congrArg (List.cons · []) halone', hmany⟩

/-- The lexical pass does not run over a repetition without quantifiers. -/
theorem not_lexicalPass_of_repeats (hid : o.lexicalId? name = some lhs)
    (h : Repeats ss .lexical name a b) (halike : a.Alike b) (ha : a.IsPlain) :
    ¬(ss.forM (lexicalStatement o)).run d = .ok (u, d') := by
  intro hrun
  cases h with
  | together hs hdefines htier hboth _ =>
    obtain ⟨e, e', hrun⟩ := exists_run_of_mem hrun hs
    cases hdefines with
    | @lexical spelling alternatives offset hname =>
      obtain rfl := List.mem_singleton.mp (List.mem_of_getElem? htier)
      replace hrun := lexical_alternatives hname hid hrun
      obtain ⟨e₁, hwithin, hwithin'⟩ := exists_within_of_sublist
        (fun alt _ => lexicalAlternative_keeps (o := o) lhs name fun _ _ => trivial) hrun hboth
      exact not_within_lexicalAlternative_twice halike ha hwithin hwithin'
  | @apart s s' tiers tiers' hss hdefines hdefines' hmem hmem' _ =>
    have hkeeps (s : Statement) : (lexicalStatement o s).Keeps o fun _ => True :=
      lexicalStatement_keeps fun _ _ => trivial
    obtain ⟨e, hs, hs'⟩ := exists_within_of_sublist (fun s _ => hkeeps s) hrun hss
    obtain ⟨alternatives, rfl⟩ := hdefines.eq_singleton
    obtain ⟨alternatives', rfl⟩ := hdefines'.eq_singleton
    rw [List.flatten_singleton] at hmem hmem'
    exact not_within_lexicalAlternative_twice halike ha
      (hs.of_lexicalStatement hdefines hid hmem) (hs'.of_lexicalStatement hdefines' hid hmem')

/-- The passes do not run over a repetition. -/
theorem not_statements_of_repeats (ho : Outline.ofStatements ss = .ok o)
    (h : Repeats ss level name a b) (halike : a.Alike b) (ha : level = .lexical → a.IsPlain) :
    ¬(statements o ss).run d = .ok (u, d') := by
  intro hrun
  rw [statements_eq] at hrun
  obtain ⟨_, d₁, -, hrun⟩ := run_bind.mp hrun
  obtain ⟨_, d₂, hstructural, hlexical⟩ := run_bind.mp hrun
  have hlists := Outline.lists_of_ofStatements ho
  obtain ⟨s, hs, tiers, hdefines⟩ := h.exists_defines
  cases hdefines with
  | structural hname =>
    have hid := (hlists.structural name).mpr ⟨_, hs, Outline.structural_name hname⟩
    obtain ⟨lhs, hid⟩ := Outline.isStructural_iff.mp hid
    exact not_structuralPass_of_repeats hlists hid h halike hstructural
  | lexical hname =>
    have hid := (hlists.lexical name).mpr ⟨_, hs, Outline.lexical_name hname⟩
    obtain ⟨lhs, hid⟩ := Outline.isLexical_iff.mp hid
    exact not_lexicalPass_of_repeats hid h halike (ha rfl) hlexical

end Drafting

/-- A grammar in which a name is given an alternative again is refused. Either something is
    malformed, or a name without any rules is found before that. -/
theorem compile_of_repeats {ss : List Statement} (h : Repeats ss level name a b)
    (halike : a.Alike b) (ha : level = .lexical → a.IsPlain) (description : String) :
    ∃ e, (⟨ss, description⟩ : Definition).compile = .error e ∧ (e.kind = .malformedRule ∨
      ∃ missing, e.kind = .undefinedSymbol ∧ e.message = (Cause.missingSymbol missing).message ∧
        ∀ s ∈ ss, s.structuralName? ≠ some missing ∧ s.lexicalName? ≠ some missing) := by
  obtain ⟨f, hf, hkind⟩ := Grammar.exists_fault_of_not_run
    (fun o d d' u ho => Drafting.not_statements_of_repeats ho h halike ha) description
  refine ⟨.ofFault description f, Definition.compile_eq_error_iff.mpr ⟨f, hf, rfl⟩, ?_⟩
  rcases hkind with hkind | ⟨missing, hcause, hnone⟩
  · exact Or.inl hkind
  · refine Or.inr ⟨missing, ?_, ?_, hnone⟩
    · rw [CompileError.ofFault, hcause]
      rfl
    · rw [CompileError.ofFault, hcause]

/-- Statements about words, which are defined as letters in two ways of writing a name. -/
def Statement.wordsTwice : List Statement :=
  [.rule "s" ["word"], .lexeme "word" ["letter"], .lexeme "word" ["<letter>"],
    .lexeme "letter" ["[a-z]"]]

/-- A name in brackets is the same element as without them. -/
theorem compile_of_repeats_words :
    ∃ e, (⟨Statement.wordsTwice, "words"⟩ : Definition).compile = .error e ∧
      (e.kind = .malformedRule ∨
        ∃ missing, e.kind = .undefinedSymbol ∧ e.message = (Cause.missingSymbol missing).message ∧
          ∀ s ∈ Statement.wordsTwice,
            s.structuralName? ≠ some missing ∧ s.lexicalName? ≠ some missing) := by
  have hname : Element.decode "word" = .ok (.name "word") := by decide +kernel
  have hplain : (Alternative.ofItems ["letter"]).IsPlain := by
    rw [Alternative.IsPlain]
    decide
  have hsame : Element.decode (RhsItem.parse "letter").element =
      Element.decode (RhsItem.parse "<letter>").element := by
    decide +kernel
  have hboth : [Statement.lexeme "word" ["letter"], .lexeme "word" ["<letter>"]].Sublist
      Statement.wordsTwice := by
    decide
  have hrepeats : Repeats Statement.wordsTwice .lexical "word" (.ofItems ["letter"])
      (.ofItems ["<letter>"]) :=
    .apart hboth (.lexical hname) (.lexical hname)
      (List.mem_flatten_of_mem List.mem_cons_self List.mem_cons_self)
      (List.mem_flatten_of_mem List.mem_cons_self List.mem_cons_self)
      fun h => h.2.2.not_isPlain hplain
  have halike : (Alternative.ofItems ["letter"]).Alike (.ofItems ["<letter>"]) :=
    .cons ⟨hsame, rfl⟩ .nil
  exact compile_of_repeats hrepeats halike (fun _ => hplain) "words"

/-- Digits, defined by the same alternative twice. -/
def Definition.digitsTwice : Definition :=
  ⟨[.rule "s" ["n"], .lexical "n" [.ofItems ["[0-9]+"], .ofItems ["[0-9]+"]] 0], "digits"⟩

/-- A sequence, defined by the same statement twice. -/
def Definition.sequenceTwice : Definition :=
  ⟨[.rule "s" ["'a'+"], .rule "s" ["'a'+"]], "sequence"⟩

/-- A sum, defined by the same items twice in one tier. -/
def Definition.sumTwice : Definition :=
  ⟨[.prioritized "e" [[.ofItems ["'a'"]], [.ofItems ["e", "'+'", "e"],
    (Alternative.ofItems ["e", "'+'", "e"]).withAdverb "assoc" "right"]]], "sum"⟩

/-- Repetitions that are not found out: an element of a lexical rule with a quantifier, a sequence,
    and an alternative of a tier with another associativity. -/
theorem repetitions_accepted :
    (∃ g, Definition.digitsTwice.compile = .ok g) ∧
      (∃ g, Definition.sequenceTwice.compile = .ok g) ∧
      ∃ g, Definition.sumTwice.compile = .ok g := by
  have haccepted {c : Definition} (h : c.compile.toOption.any (fun _ => true) = true) :
      ∃ g, c.compile = .ok g := by
    obtain ⟨g, hg, -⟩ := exists_eq_ok_of_any h
    exact ⟨g, hg⟩
  exact ⟨haccepted (by decide +kernel), haccepted (by decide +kernel),
    haccepted (by decide +kernel)⟩

end Scannerless
