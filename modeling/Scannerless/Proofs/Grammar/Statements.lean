import Scannerless.Draft.Lexical
import Scannerless.Definition
import Scannerless.Proofs.Grammar.Drafting
import Scannerless.Proofs.Grammar.RuleForms

/-!
# What statements add

Every statement leads from a valid plan to a valid one. An element becomes a symbol that
may stand where the element stood.

## Main definitions

- `Plan.Sequence` — the symbols of a sequence, of which that of its items is no tier.

## Main statements

- `Plan.structuralSymbol_leads`, `Plan.lexicalItem_leads` — the symbols of elements.
- `Plan.sequence_leads`, `Plan.precedence_leads` — sequences and tiers.
- `Plan.statements_leads` — all statements of a grammar.
-/

namespace Scannerless

namespace Plan

variable {o : Outline} {p q : Plan} {s : SymbolId}

/-! ### Elements -/

theorem characterSymbol_leads (hp : p.Valid o) (cls : CharClass) (offset : Nat) :
    p.Leads o (Drafting.characterSymbol cls offset) fun s q => q.Character s := by
  rw [Drafting.characterSymbol]
  refine leads_get_bind ?_
  split
  next id hfound =>
    obtain ⟨front, back, hsplit, -⟩ := List.lookup_eq_some_iff.mp hfound
    exact leads_pure hp (hp.characters (cls.spelling, id) (by simp [hsplit]))
  next =>
    refine (addSymbol_leads hp _ _ _ False).bind fun s q hq hpq hs => ?_
    let r : Plan :=
      ⟨{ q.draft with characters := (cls.spelling, s) :: q.draft.characters }, q.tiers⟩
    have hqr : q.Extends r := .of_eq rfl rfl rfl
    have hr : r.Valid o := by
      refine ⟨hq.structuralNames, hq.lexicalNames, hq.anonymous, fun e he => ?_, hq.lexemes,
        hq.discards, hq.structural, hq.lexical, hq.passesOn⟩
      rcases List.mem_cons.mp he with rfl | he
      · exact ⟨cls, hs.1⟩
      · exact hq.characters e he
    refine (leads_modify hr hqr rfl).bind fun _ u hu hqu _ => leads_pure hu ?_
    exact hqu.character ⟨cls, hs.1⟩

theorem characterSymbols_leads (hp : p.Valid o) (t : Terminal) (offset : Nat) :
    p.Leads o (Drafting.characterSymbols t offset) fun ss q => ∀ s ∈ ss, q.Character s :=
  leads_mapM hp (fun _ _ _ hqr hs => hqr.character hs)
    fun cls _ _ hq _ => characterSymbol_leads hq cls offset

theorem anonymousLexeme_leads (hp : p.Valid o) (t : Terminal) (offset : Nat) :
    p.Leads o (Drafting.anonymousLexeme t offset) fun s q => q.Lexeme s := by
  rw [Drafting.anonymousLexeme]
  refine leads_get_bind ?_
  split
  next id hfound =>
    obtain ⟨front, back, hsplit, -⟩ := List.lookup_eq_some_iff.mp hfound
    exact leads_pure hp (hp.anonymous (t.spelling, id) (by simp [hsplit]))
  next =>
    refine (addSymbol_leads hp _ _ _ False).bind fun s q hq hpq hs => ?_
    let r : Plan :=
      ⟨{ q.draft with anonymous := (t.spelling, s) :: q.draft.anonymous }, q.tiers⟩
    have hqr : q.Extends r := .of_eq rfl rfl rfl
    have hr : r.Valid o := by
      refine ⟨hq.structuralNames, hq.lexicalNames, fun e he => ?_, hq.characters, hq.lexemes,
        hq.discards, hq.structural, hq.lexical, hq.passesOn⟩
      rcases List.mem_cons.mp he with rfl | he
      · exact hs.1
      · exact hq.anonymous e he
    refine (leads_modify hr hqr rfl).bind fun _ r' hr' hqr' _ => ?_
    refine (characterSymbols_leads hr' t offset).bind fun rhs u hu hru hrhs => ?_
    have hlexeme : u.Lexeme s := hru.lexeme (hqr'.lexeme hs.1)
    refine (addPlain_lexical_leads hu (Or.inl hlexeme) (fun x hx => Or.inr (hrhs x hx)) _ _
      _).bind fun _ v hv huv _ => leads_pure hv (huv.lexeme hlexeme)

theorem structuralId?_lt {name : String} {id : SymbolId} (h : o.structuralId? name = some id) :
    id < o.structural.length :=
  (List.findIdx?_eq_some_iff_findIdx_eq.mp h).1

theorem Valid.lexed_of_lexicalId? (hp : p.Valid o) {name : String}
    (h : o.lexicalId? name = some s) : p.Lexed s := by
  rw [Outline.lexicalId?, Option.map_eq_some_iff] at h
  obtain ⟨i, hi, rfl⟩ := h
  exact hp.lexicalNames i (List.findIdx?_eq_some_iff_findIdx_eq.mp hi).1

def withLexeme (p : Plan) (id : SymbolId) : Plan where
  draft := { p.draft with
    symbols := p.draft.symbols.modify id fun s => { s with kind := .lexeme } }
  tiers := p.tiers

theorem kind?_withLexeme (p : Plan) (id s : SymbolId) :
    (p.withLexeme id).draft.kind? s =
      if s = id then (p.draft.kind? s).map fun _ => .lexeme else p.draft.kind? s := by
  rw [Draft.kind?, withLexeme, Array.getElem?_modify]
  by_cases h : id = s
  · rw [if_pos h, if_pos h.symm, Draft.kind?, Option.map_map, Option.map_map]
    rfl
  · rw [if_neg h, if_neg (Ne.symm h), Draft.kind?]

theorem lexeme_withLexeme (hs : p.Lexed s) : (p.withLexeme s).Lexeme s := by
  rw [Lexeme, kind?_withLexeme, if_pos rfl]
  rcases hs with h | h <;> rw [h, Option.map_some]

/-- A symbol with lexical rules may become a lexeme. -/
theorem extends_withLexeme (hs : p.Lexed s) : p.Extends (p.withLexeme s) := by
  refine ⟨fun x k hx => ?_, fun _ h => h, fun _ _ _ => Iff.rfl⟩
  rw [kind?_withLexeme]
  by_cases h : x = s
  · subst h
    rw [if_pos rfl, hx, Option.map_some]
    rcases hs with h | h
    · rw [hx, Option.some.injEq] at h
      rw [h]
      exact Or.inl rfl
    · rw [hx, Option.some.injEq] at h
      rw [h]
      exact Or.inr ⟨rfl, rfl⟩
  · rw [if_neg h]
    exact Or.inl hx

theorem namedLexeme_leads (hp : p.Valid o) (name : String) (offset : Nat) :
    p.Leads o (Drafting.namedLexeme o name offset) fun s q => q.Lexeme s := by
  rw [Drafting.namedLexeme]
  split
  next id hid =>
    have hlexed := hp.lexed_of_lexicalId? hid
    have hpq := extends_withLexeme hlexed
    have hq : (p.withLexeme id).Valid o := hp.of_extends hpq rfl rfl rfl rfl rfl rfl
    refine (leads_modify hq hpq rfl).bind fun _ r hr hqr hsame => leads_pure hr ?_
    rw [hsame]
    exact lexeme_withLexeme hlexed
  next => exact leads_refuse _ _

theorem useLexeme_leads (hp : p.Valid o) (hs : p.Lexeme s) :
    p.Leads o (Drafting.useLexeme s) fun s q => q.Operand s := by
  let q : Plan := ⟨{ p.draft with lexemes := insertLast p.draft.lexemes s }, p.tiers⟩
  have hpq : p.Extends q :=
    ⟨fun _ _ h => Or.inl h, fun _ h => mem_insertLast.mpr (Or.inl h), fun _ _ _ => Iff.rfl⟩
  have hq : q.Valid o := by
    refine ⟨hp.structuralNames, hp.lexicalNames, hp.anonymous, hp.characters, fun x hx => ?_,
      hp.discards, fun r hr => ?_, hp.lexical, hp.passesOn⟩
    · rcases mem_insertLast.mp hx with hx | rfl
      · exact hp.lexemes x hx
      · exact hs
    · obtain ⟨hlhs, hrhs⟩ := hp.structural r hr
      exact ⟨hlhs, fun x hx => hpq.operand (hrhs x hx)⟩
  rw [Drafting.useLexeme]
  refine (leads_modify hq hpq rfl).bind fun _ r hr hqr hsame => leads_pure hr ?_
  rw [hsame]
  exact Or.inr (mem_insertLast.mpr (Or.inr rfl))

/-- An element of a structural rule becomes a symbol that may stand there. -/
theorem structuralSymbol_leads (hp : p.Valid o) (raw : String) (offset : Nat) :
    p.Leads o (Drafting.structuralSymbol o raw offset) fun s q => q.Operand s := by
  rw [Drafting.structuralSymbol]
  refine leads_lift_bind fun element _ => ?_
  split
  · split
    next id hid =>
      exact leads_pure hp (Or.inl (hp.structuralNames id (structuralId?_lt hid)).1)
    next =>
      exact (namedLexeme_leads hp _ _).bind fun s q hq _ hs => useLexeme_leads hq hs
  · exact (anonymousLexeme_leads hp _ _).bind fun s q hq _ hs => useLexeme_leads hq hs

theorem structuralSymbols_leads (hp : p.Valid o) (items : List RhsItem) :
    p.Leads o (Drafting.structuralSymbols o items) fun ss q => ∀ s ∈ ss, q.Operand s :=
  leads_mapM hp (fun _ _ _ hqr hs => hqr.operand hs)
    fun item _ _ hq _ => structuralSymbol_leads hq item.element item.offset

theorem discard_leads (hp : p.Valid o) (raw : String) (offset : Nat) :
    p.Leads o (Drafting.discard o raw offset) fun _ _ => True := by
  have hsymbol : p.Leads o (Drafting.discardSymbol o raw offset) fun s q => q.Lexeme s := by
    rw [Drafting.discardSymbol]
    refine leads_lift_bind fun element _ => ?_
    split
    · split
      · exact leads_refuse _ _
      · exact namedLexeme_leads hp _ _
    · exact anonymousLexeme_leads hp _ _
  rw [Drafting.discard]
  refine hsymbol.bind fun s q hq hpq hs => ?_
  let r : Plan := ⟨{ q.draft with discards := insertLast q.draft.discards s }, q.tiers⟩
  have hqr : q.Extends r := .of_eq rfl rfl rfl
  have hr : r.Valid o := by
    refine ⟨hq.structuralNames, hq.lexicalNames, hq.anonymous, hq.characters, hq.lexemes,
      fun x hx => ?_, hq.structural, hq.lexical, hq.passesOn⟩
    rcases mem_insertLast.mp hx with hx | rfl
    · exact hq.discards x hx
    · exact hs
  have hmodify : q.Leads o (modify fun d => { d with discards := insertLast d.discards s })
      fun _ q' => q' = r := leads_modify hr hqr rfl
  exact hmodify.imp fun _ _ _ _ => trivial

/-! ### Structural statements -/

theorem plainAlternative_leads (hp : p.Valid o) {lhs : SymbolId} (hlhs : p.Nonterminal lhs)
    (name : String) (alt : Alternative) :
    p.Leads o (Drafting.plainAlternative o lhs name alt) fun _ _ => True := by
  rw [Drafting.plainAlternative]
  refine leads_lift_bind fun adverbs _ => ?_
  refine (structuralSymbols_leads hp alt.rhs).bind fun rhs q hq hpq hrhs => ?_
  refine addDeclared_leads hq fun r hr hqr => ?_
  exact addApply_leads hr (hqr.nonterminal (hpq.nonterminal hlhs))
    (fun x hx => hqr.operand (hrhs x hx)) _ _ _ _

/-- The symbols of a sequence. That of its items is no tier, so that its spliced rules may
    have any number of values. -/
structure Sequence (p : Plan) (lhs items element : SymbolId) : Prop where
  lhs_nonterminal : p.Nonterminal lhs
  items_nonterminal : p.Nonterminal items
  items_plain : ¬p.tiers items
  element_operand : p.Operand element

theorem Extends.sequence (h : p.Extends q) {lhs items element : SymbolId}
    (hs : p.Sequence lhs items element) : q.Sequence lhs items element where
  lhs_nonterminal := h.nonterminal hs.lhs_nonterminal
  items_nonterminal := h.nonterminal hs.items_nonterminal
  items_plain htier := hs.items_plain ((h.tiers _ _ hs.items_nonterminal).mp htier)
  element_operand := h.operand hs.element_operand

theorem Sequence.items_operand {lhs items element : SymbolId} (h : p.Sequence lhs items element) :
    p.Operand items :=
  Or.inl h.items_nonterminal

theorem separator_leads (hp : p.Valid o) (written : Option (String × Nat)) :
    p.Leads o (written.mapM fun x => Drafting.structuralSymbol o x.1 x.2)
      fun separator q => ∀ s, separator = some s → q.Operand s := by
  cases written with
  | none => exact leads_pure hp (by simp)
  | some x =>
    refine (structuralSymbol_leads hp x.1 x.2).bind fun s r hr _ hs => leads_pure hr ?_
    rintro _ ⟨⟩
    exact hs

/-- The rules of the items are no rules of a tier, so that they may have more than one value. -/
theorem sequence_leads (hp : p.Valid o) {lhs : SymbolId} (hlhs : p.Nonterminal lhs)
    (name : String) (item : RhsItem) (alt : Alternative) :
    p.Leads o (Drafting.sequence o lhs name item alt) fun _ _ => True := by
  rw [Drafting.sequence_eq]
  refine leads_lift_bind fun adverbs _ => ?_
  refine (structuralSymbol_leads hp _ _).bind fun element q hq hpq helement => ?_
  refine (separator_leads hq _).bind fun separator r hr hqr hsep => ?_
  refine (addSymbol_leads hr _ _ _ False).bind fun items u hu hru hitems => ?_
  have hseq : u.Sequence lhs items element :=
    ⟨hru.nonterminal (hqr.nonterminal (hpq.nonterminal hlhs)), hitems.1, hitems.2.mp,
      hru.operand (hqr.operand helement)⟩
  refine leads_forM hu fun x hx v hv huv => ?_
  replace hseq := huv.sequence hseq
  refine addRule_structural_leads hv ?_ (fun s hs => ?_) fun htier hsplice => ?_
  · rcases SequenceParts.lhs_of_mem_rules hx with h | h
    · exact h ▸ hseq.lhs_nonterminal
    · exact h ▸ hseq.items_nonterminal
  · rcases SequenceParts.mem_of_mem_rhs hx hs with rfl | rfl | hs
    · exact hseq.items_operand
    · exact hseq.element_operand
    · exact huv.operand (hru.operand (hsep s hs))
  · rcases SequenceParts.cases_of_mem_rules hx with ⟨h, -⟩ | ⟨-, h⟩
    · rw [h] at htier
      exact absurd htier hseq.items_plain
    · simp [Rule.isSplice, h] at hsplice

theorem alternative_leads (hp : p.Valid o) {lhs : SymbolId} (hlhs : p.Nonterminal lhs)
    (name : String) (alone : Bool) (alt : Alternative) :
    p.Leads o (Drafting.alternative o lhs name alone alt) fun _ _ => True := by
  rw [Drafting.alternative]
  split
  · exact plainAlternative_leads hp hlhs name alt
  · split
    · exact sequence_leads hp hlhs name _ alt
    · exact leads_refuse _ _

theorem tierAlternative_leads (hp : p.Valid o) {lhs current tighter : SymbolId}
    (hlhs : p.Nonterminal lhs) (hcurrent : p.Nonterminal current)
    (htighter : p.Nonterminal tighter) (name : String) (alt : Alternative) :
    p.Leads o (Drafting.tierAlternative o lhs name current tighter alt) fun _ _ => True := by
  rw [Drafting.tierAlternative]
  split
  · exact leads_refuse _ _
  · refine leads_lift_bind fun adverbs _ => ?_
    have helements : p.Leads o
        (alt.rhs.mapM fun item => liftM (Element.decodeAt item.element item.offset))
        fun (_ : List Element) _ => True := by
      refine (leads_mapM (Q := fun _ _ => True) hp (fun _ _ _ _ _ => trivial)
        fun item _ q hq _ => ?_).imp fun _ _ _ _ => trivial
      rw [← bind_pure (liftM (Element.decodeAt item.element item.offset) : Drafting Element)]
      exact leads_lift_bind fun _ _ => leads_pure hq trivial
    refine helements.bind fun elements q hq hpq _ => ?_
    refine (structuralSymbols_leads hq alt.rhs).bind fun rhs r hr hqr hrhs => ?_
    refine addDeclared_leads hr fun u hu hru => ?_
    have hpu := (hpq.trans hqr).trans hru
    refine addApply_leads hu (hpu.nonterminal hcurrent) (fun x hx => ?_) _ _ _ _
    rcases mem_of_mem_placeOperands hx with hx | rfl | rfl | rfl
    · exact hru.operand (hrhs x hx)
    · exact Or.inl (hpu.nonterminal hlhs)
    · exact Or.inl (hpu.nonterminal hcurrent)
    · exact Or.inl (hpu.nonterminal htighter)

theorem levels_leads (hp : p.Valid o) (name : String) (count offset : Nat) :
    p.Leads o ((List.range count).mapM fun k =>
        Drafting.addSymbol (name ++ "[" ++ toString k ++ "]") .nonterminal offset)
      fun levels q => ∀ s ∈ levels, q.Nonterminal s ∧ q.tiers s := by
  refine leads_mapM hp (fun s q r hqr hs => ?_) fun k _ q hq _ => ?_
  · exact hqr.tier hs
  · exact (addSymbol_leads hq _ _ _ True).imp fun s q _ hs => ⟨hs.1, hs.2.mpr trivial⟩

/-- The spliced rules of tiers lead from tier to tier. -/
theorem precedence_leads (hp : p.Valid o) {lhs : SymbolId} (hlhs : p.Nonterminal lhs)
    (name : String) (tiers : List (List Alternative)) :
    p.Leads o (Drafting.precedence o lhs name tiers) fun _ _ => True := by
  rw [Drafting.precedence_eq]
  refine leads_get_bind ?_
  refine (levels_leads hp name _ _).bind fun levels q hq hpq hlevels => ?_
  have hlhs : q.Nonterminal lhs := hpq.nonterminal hlhs
  have hchain : q.Leads o ((Draft.chainRules lhs name levels).forM
      (Drafting.addRule .structural)) fun _ _ => True := by
    refine leads_forM hq fun x hx r hr hqr => ?_
    obtain ⟨s, hs, tier, htier, rfl⟩ := Draft.exists_of_mem_chainRules hx
    refine addHand_leads hr ?_ (hqr.tier (hlevels tier htier)) name
    rcases hs with rfl | hs
    · exact hqr.nonterminal hlhs
    · exact hqr.nonterminal (hlevels s hs).1
  refine hchain.bind fun _ u hu hqu _ => ?_
  refine leads_forM hu fun x hx v hv huv => leads_forM hv fun alt _ w hw hvw => ?_
  obtain ⟨-, hx⟩ := List.of_mem_zip hx
  obtain ⟨hcurrent, htighter⟩ := List.of_mem_zip hx
  -- The tightest tier comes twice: it is next to itself.
  have htighter : x.2.2 ∈ levels := by
    rcases List.mem_append.mp htighter with h | h
    · exact List.mem_of_mem_take h
    · exact h
  have hqw := (hqu.trans huv).trans hvw
  exact tierAlternative_leads hw (hqw.nonterminal hlhs) (hqw.tier (hlevels _ hcurrent)).1
    (hqw.tier (hlevels _ htighter)).1 name alt

theorem structural_leads (hp : p.Valid o) (spelling : String)
    (tiers : List (List Alternative)) (offset : Nat) :
    p.Leads o (Drafting.structural o spelling tiers offset) fun _ _ => True := by
  rw [Drafting.structural]
  refine leads_lift_bind fun name _ => ?_
  split
  · exact leads_pure hp trivial
  next lhs hid =>
    obtain ⟨hlhs, -⟩ := hp.structuralNames lhs (structuralId?_lt hid)
    split
    · exact leads_forM hp fun alt _ q hq hpq =>
        alternative_leads hq (hpq.nonterminal hlhs) name _ alt
    · exact precedence_leads hp hlhs name tiers

/-! ### Lexical statements -/

theorem mem_alternatives {quantifier : Quantifier} {self : SymbolId} {body rhs : List SymbolId}
    (hrhs : rhs ∈ quantifier.alternatives self body) (hs : s ∈ rhs) : s ∈ body ∨ s = self := by
  have hcases : rhs = body ∨ rhs = [] ∨ rhs = self :: body := by
    cases quantifier <;> simp only [Quantifier.alternatives, List.mem_cons, List.not_mem_nil,
      or_false] at hrhs <;> rcases hrhs with rfl | rfl <;> simp
  rcases hcases with rfl | rfl | rfl
  · exact Or.inl hs
  · cases hs
  · exact (List.mem_cons.mp hs).symm

/-- The symbol of an element with a quantifier has rules of the element and of itself. -/
theorem quantified_leads (hp : p.Valid o) {body : List SymbolId} (hbody : ∀ x ∈ body, p.Part x)
    (name : String) (quantifier : Quantifier) (offset : Nat) :
    p.Leads o (Drafting.quantified name body quantifier offset) fun s q => q.Part s := by
  rw [Drafting.quantified]
  refine leads_get_bind ?_
  refine (addSymbol_leads hp _ _ _ False).bind fun id q hq hpq hid => ?_
  have hself : q.Lexed id := Or.inr hid.1
  have hrules : q.Leads o ((quantifier.alternatives id body).forM fun rhs =>
      Drafting.addPlain .lexical id rhs (name ++ "[" ++ toString p.draft.symbols.size ++ "]")
        (.apply none) 0) fun _ _ => True := by
    refine leads_forM hq fun rhs hrhs r hr hqr => ?_
    refine addPlain_lexical_leads hr (hqr.lexed hself) (fun x hx => ?_) _ _ _
    rcases mem_alternatives hrhs hx with hx | rfl
    · exact hqr.part (hpq.part (hbody x hx))
    · exact Or.inl (hqr.lexed hself)
  exact hrules.bind fun _ r hr hqr _ => leads_pure hr (Or.inl (hqr.lexed hself))

theorem lexicalBody_leads (hp : p.Valid o) (lhs : SymbolId) (item : RhsItem) :
    p.Leads o (Drafting.lexicalBody o lhs item) fun body q => ∀ x ∈ body, q.Part x := by
  rw [Drafting.lexicalBody]
  refine leads_lift_bind fun element _ => ?_
  split
  · exact (characterSymbols_leads hp _ _).imp fun ss q _ hss x hx => Or.inr (hss x hx)
  · split
    · exact leads_refuse _ _
    · split
      · exact leads_refuse _ _
      next id hid =>
        let q : Plan :=
          ⟨{ p.draft with references := p.draft.references ++ [(lhs, id)] }, p.tiers⟩
        have hpq : p.Extends q := .of_eq rfl rfl rfl
        have hq : q.Valid o := hp.of_extends hpq rfl rfl rfl rfl rfl rfl
        refine (leads_modify hq hpq rfl).bind fun _ r hr hqr _ => leads_pure hr ?_
        rw [List.forall_mem_singleton]
        exact Or.inl (hqr.lexed (hp.lexed_of_lexicalId? hid))

theorem lexicalItem_leads (hp : p.Valid o) (lhs : SymbolId) (name : String) (item : RhsItem) :
    p.Leads o (Drafting.lexicalItem o lhs name item) fun body q => ∀ x ∈ body, q.Part x := by
  rw [Drafting.lexicalItem]
  refine (lexicalBody_leads hp lhs item).bind fun body q hq hpq hbody => ?_
  split
  · exact leads_pure hq hbody
  · refine (quantified_leads hq hbody _ _ _).bind fun s r hr _ hs => leads_pure hr ?_
    rw [List.forall_mem_singleton]
    exact hs

theorem lexicalAlternative_leads (hp : p.Valid o) {lhs : SymbolId} (hlhs : p.Lexed lhs)
    (name : String) (alt : Alternative) :
    p.Leads o (Drafting.lexicalAlternative o lhs name alt) fun _ _ => True := by
  rw [Drafting.lexicalAlternative]
  split
  · exact leads_refuse _ _
  · have hparts : p.Leads o (alt.rhs.mapM (Drafting.lexicalItem o lhs name))
        fun parts q => ∀ body ∈ parts, ∀ x ∈ body, q.Part x :=
      leads_mapM hp (fun _ _ _ hqr hbody x hx => hqr.part (hbody x hx))
        fun item _ q hq _ => lexicalItem_leads hq lhs name item
    refine hparts.bind fun parts q hq hpq hparts => ?_
    refine addDeclared_leads hq fun r hr hqr => ?_
    refine addPlain_lexical_leads hr (hqr.lexed (hpq.lexed hlhs)) (fun x hx => ?_) _ _ _
    obtain ⟨body, hbody, hx⟩ := List.mem_flatten.mp hx
    exact hqr.part (hparts body hbody x hx)

theorem lexical_leads (hp : p.Valid o) (spelling : String) (alternatives : List Alternative)
    (offset : Nat) : p.Leads o (Drafting.lexical o spelling alternatives offset)
      fun _ _ => True := by
  rw [Drafting.lexical]
  refine leads_lift_bind fun name _ => ?_
  split
  · exact leads_pure hp trivial
  next lhs hid =>
    exact leads_forM hp fun alt _ q hq hpq =>
      lexicalAlternative_leads hq (hpq.lexed (hp.lexed_of_lexicalId? hid)) name alt

/-! ### All statements -/

/-- All statements together lead to a valid plan. -/
theorem statements_leads (hp : p.Valid o) (ss : List Statement) :
    p.Leads o (Drafting.statements o ss) fun _ _ => True := by
  rw [Drafting.statements]
  have hpass (q : Plan) (hq : q.Valid o) (f : Statement → Drafting Unit)
      (hf : ∀ s r, r.Valid o → r.Leads o (f s) fun _ _ => True) :
      q.Leads o (ss.forM f) fun _ _ => True :=
    leads_forM hq fun s _ r hr _ => hf s r hr
  refine (hpass p hp _ fun s r hr => ?_).bind fun _ q hq _ _ => ?_
  · split
    · exact discard_leads hr _ _
    · exact leads_pure hr trivial
  refine (hpass q hq _ fun s r hr => ?_).bind fun _ u hu _ _ => ?_
  · split
    · exact structural_leads hr _ _ _
    · exact leads_pure hr trivial
  refine hpass u hu _ fun s r hr => ?_
  split
  · exact lexical_leads hr _ _ _
  · exact leads_pure hr trivial

/-- The draft of an outline is valid, and its definitions count as tiers. -/
theorem valid_ofOutline (o : Outline) :
    (Plan.mk (Draft.ofOutline o) fun s => s < o.structural.length).Valid o where
  structuralNames s hs := by
    refine ⟨?_, hs⟩
    simp [Nonterminal, Draft.kind?, Draft.ofOutline, List.getElem?_append, hs]
  lexicalNames i hi := by
    right
    simp [Draft.kind?, Draft.ofOutline, hi]
  anonymous e he := by cases he
  characters e he := by cases he
  lexemes s hs := by cases hs
  discards s hs := by cases hs
  structural r hr := by simp [Draft.ofOutline] at hr
  lexical r hr := by simp [Draft.ofOutline] at hr
  passesOn r hr := by simp [Draft.ofOutline] at hr

end Plan

end Scannerless
