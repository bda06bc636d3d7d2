import Mathlib.Order.Basic
import Scannerless.Draft.Basic
import Scannerless.Proofs.Outcomes

/-!
# Steps that extend a draft

The steps that read statements keep a draft valid: every symbol plays one part, and the
rules of each level have the symbols that belong there. A draft is looked at together
with the symbols of definitions and tiers, which are known as the steps make them.

## Main definitions

- `Plan` — a draft with the symbols of definitions and tiers.
- `Plan.Extends` — what later steps leave as it is.
- `Plan.Valid` — the invariant of all steps.
- `Plan.Leads` — a step keeps the invariant and what it leads to.

## Main statements

- `Plan.Leads.bind`, `Plan.leads_forM`, `Plan.leads_mapM` — steps one after the other.
- `Plan.addSymbol_leads`, `Plan.addRule_structural_leads`, `Plan.addPlain_lexical_leads` —
  what the basic steps lead to.
-/

namespace Scannerless

def Draft.kind? (d : Draft) (s : SymbolId) : Option SymbolKind :=
  d.symbols[s]?.map (·.kind)

theorem Draft.lt_of_kind? {d : Draft} {s : SymbolId} {k : SymbolKind} (h : d.kind? s = some k) :
    s < d.symbols.size := by
  refine Nat.lt_of_not_le fun hle => ?_
  rw [kind?, Array.getElem?_eq_none hle] at h
  cases h

/-- A draft with the symbols of definitions and tiers among its symbols. -/
structure Plan where
  draft : Draft
  tiers : SymbolId → Prop

namespace Plan

variable {o : Outline} {p q r : Plan} {s : SymbolId}

/-- A symbol with structural rules. -/
def Nonterminal (p : Plan) (s : SymbolId) : Prop :=
  p.draft.kind? s = some .nonterminal

/-- A token of structural rules, or a discarded lexeme. -/
def Lexeme (p : Plan) (s : SymbolId) : Prop :=
  p.draft.kind? s = some .lexeme

/-- A symbol with lexical rules. -/
def Lexed (p : Plan) (s : SymbolId) : Prop :=
  p.draft.kind? s = some .lexeme ∨ p.draft.kind? s = some .lexical

/-- A symbol that stands for a character. -/
def Character (p : Plan) (s : SymbolId) : Prop :=
  ∃ cls, p.draft.kind? s = some (.char cls)

/-- A symbol of a structural right side. -/
def Operand (p : Plan) (s : SymbolId) : Prop :=
  p.Nonterminal s ∨ s ∈ p.draft.lexemes

/-- A symbol of a lexical right side. -/
def Part (p : Plan) (s : SymbolId) : Prop :=
  p.Lexed s ∨ p.Character s

/-- What later steps leave as it is. A symbol with lexical rules may become a lexeme. -/
structure Extends (p q : Plan) : Prop where
  kind : ∀ s k, p.draft.kind? s = some k →
    q.draft.kind? s = some k ∨ k = .lexical ∧ q.draft.kind? s = some .lexeme
  lexemes : ∀ s ∈ p.draft.lexemes, s ∈ q.draft.lexemes
  tiers : ∀ s k, p.draft.kind? s = some k → (q.tiers s ↔ p.tiers s)

/-- What is so of a draft after every step. -/
structure Valid (o : Outline) (p : Plan) : Prop where
  structuralNames : ∀ s < o.structural.length, p.Nonterminal s ∧ p.tiers s
  lexicalNames : ∀ i < o.lexical.length, p.Lexed (o.structural.length + i)
  anonymous : ∀ e ∈ p.draft.anonymous, p.Lexeme e.2
  characters : ∀ e ∈ p.draft.characters, p.Character e.2
  lexemes : ∀ s ∈ p.draft.lexemes, p.Lexeme s
  discards : ∀ s ∈ p.draft.discards, p.Lexeme s
  structural : ∀ r ∈ p.draft.structural.toList, p.Nonterminal r.lhs ∧ ∀ s ∈ r.rhs, p.Operand s
  lexical : ∀ r ∈ p.draft.lexical.toList, p.Lexed r.lhs ∧ ∀ s ∈ r.rhs, p.Part s
  passesOn : ∀ r ∈ p.draft.structural.toList, p.tiers r.lhs → r.isSplice = true →
    ∃ s, r.rhs = [s] ∧ r.mask = [true] ∧ p.tiers s

/-- Tables other than those of symbols and lexemes may change. -/
theorem Extends.of_eq (hsymbols : q.draft.symbols = p.draft.symbols)
    (hlexemes : q.draft.lexemes = p.draft.lexemes) (htiers : q.tiers = p.tiers) :
    p.Extends q := by
  have hkind (s : SymbolId) : q.draft.kind? s = p.draft.kind? s := by
    rw [Draft.kind?, hsymbols, Draft.kind?]
  refine ⟨fun s k hs => Or.inl ?_, fun s hs => ?_, fun s _ _ => ?_⟩
  · rwa [hkind]
  · rwa [hlexemes]
  · rw [htiers]

theorem Extends.refl (p : Plan) : p.Extends p :=
  .of_eq rfl rfl rfl

theorem Extends.nonterminal (h : p.Extends q) (hs : p.Nonterminal s) : q.Nonterminal s :=
  (h.kind s _ hs).resolve_right (by simp)

theorem Extends.lexeme (h : p.Extends q) (hs : p.Lexeme s) : q.Lexeme s :=
  (h.kind s _ hs).resolve_right (by simp)

theorem Extends.lexed (h : p.Extends q) (hs : p.Lexed s) : q.Lexed s := by
  rcases hs with hs | hs
  · exact Or.inl (h.lexeme hs)
  · rcases h.kind s _ hs with hs | hs
    · exact Or.inr hs
    · exact Or.inl hs.2

theorem Extends.character (h : p.Extends q) (hs : p.Character s) : q.Character s := by
  obtain ⟨cls, hs⟩ := hs
  exact ⟨cls, (h.kind s _ hs).resolve_right (by simp)⟩

theorem Extends.operand (h : p.Extends q) (hs : p.Operand s) : q.Operand s :=
  hs.imp h.nonterminal (h.lexemes s)

theorem Extends.tier (h : p.Extends q) (hs : p.Nonterminal s ∧ p.tiers s) :
    q.Nonterminal s ∧ q.tiers s :=
  ⟨h.nonterminal hs.1, (h.tiers s _ hs.1).mpr hs.2⟩

theorem Extends.part (h : p.Extends q) (hs : p.Part s) : q.Part s :=
  hs.imp h.lexed h.character

theorem Extends.trans (h : p.Extends q) (h' : q.Extends r) : p.Extends r where
  kind s k hs := by
    rcases h.kind s k hs with hq | ⟨hk, hq⟩
    · exact h'.kind s k hq
    · exact Or.inr ⟨hk, h'.lexeme hq⟩
  lexemes s hs := h'.lexemes s (h.lexemes s hs)
  tiers s k hs := by
    rcases h.kind s k hs with hs' | ⟨-, hs'⟩
    · exact (h'.tiers s k hs').trans (h.tiers s k hs)
    · exact (h'.tiers s _ hs').trans (h.tiers s k hs)

/-! ### Steps -/

/-- A step from a plan keeps the invariant, and what it leads to is so of its result
    and the plan behind it. -/
def Leads {α : Type} (o : Outline) (p : Plan) (m : Drafting α) (Q : α → Plan → Prop) : Prop :=
  ∀ a d, m.run p.draft = .ok (a, d) →
    ∃ q : Plan, q.draft = d ∧ q.Valid o ∧ p.Extends q ∧ Q a q

variable {α β : Type} {Q : α → Plan → Prop} {R : β → Plan → Prop}

theorem Leads.bind {m : Drafting α} {f : α → Drafting β} (hm : p.Leads o m Q)
    (hf : ∀ a q, q.Valid o → p.Extends q → Q a q → q.Leads o (f a) R) : p.Leads o (m >>= f) R := by
  intro b d h
  rw [StateT.run_bind, bind_eq_ok_iff] at h
  obtain ⟨⟨a, d'⟩, ha, hb⟩ := h
  obtain ⟨q, rfl, hq, hpq, hQ⟩ := hm a d' ha
  obtain ⟨r, rfl, hr, hqr, hR⟩ := hf a q hq hpq hQ b d hb
  exact ⟨r, rfl, hr, hpq.trans hqr, hR⟩

theorem leads_pure (hp : p.Valid o) {a : α} (h : Q a p) : p.Leads o (pure a) Q := by
  intro a' d hrun
  obtain ⟨rfl, rfl⟩ := Prod.mk.inj (Except.ok.inj hrun)
  exact ⟨p, rfl, hp, .refl p, h⟩

theorem leads_refuse (cause : Cause) (offset : Nat) :
    p.Leads o (Drafting.refuse cause offset : Drafting α) Q := by
  intro a d h
  cases h

theorem leads_get_bind {f : Draft → Drafting β} (h : p.Leads o (f p.draft) R) :
    p.Leads o (get >>= f) R :=
  h

theorem leads_lift_bind {x : Except Fault α} {f : α → Drafting β}
    (h : ∀ a, x = .ok a → p.Leads o (f a) R) : p.Leads o (liftM x >>= f) R := by
  intro b d hrun
  rw [StateT.run_bind, bind_eq_ok_iff] at hrun
  obtain ⟨⟨a, d'⟩, ha, hb⟩ := hrun
  cases hx : x with
  | error e =>
    rw [hx] at ha
    cases ha
  | ok a' =>
    rw [hx] at ha
    obtain ⟨rfl, rfl⟩ := Prod.mk.inj (Except.ok.inj ha)
    exact h a' hx b d hb

theorem leads_modify {f : Draft → Draft} (hq : q.Valid o) (hpq : p.Extends q)
    (hf : f p.draft = q.draft) : p.Leads o (modify f) fun _ q' => q' = q := by
  intro a d h
  obtain ⟨-, rfl⟩ := Prod.mk.inj (Except.ok.inj h)
  exact ⟨q, hf.symm, hq, hpq, rfl⟩

theorem leads_set {d : Draft} (hq : q.Valid o) (hpq : p.Extends q) (hd : d = q.draft) :
    p.Leads o (set d) fun _ q' => q' = q := by
  intro a d' h
  obtain ⟨-, rfl⟩ := Prod.mk.inj (Except.ok.inj h)
  exact ⟨q, hd.symm, hq, hpq, rfl⟩

theorem Leads.imp {m : Drafting α} {Q' : α → Plan → Prop} (hm : p.Leads o m Q)
    (h : ∀ a q, p.Extends q → Q a q → Q' a q) : p.Leads o m Q' := by
  intro a d hrun
  obtain ⟨q, rfl, hq, hpq, hQ⟩ := hm a d hrun
  exact ⟨q, rfl, hq, hpq, h a q hpq hQ⟩

/-- Steps for all elements of a list lead to what every one of them leads to. -/
theorem leads_forM {xs : List β} {f : β → Drafting Unit} (hp : p.Valid o)
    (hf : ∀ x ∈ xs, ∀ q, q.Valid o → p.Extends q → q.Leads o (f x) fun _ _ => True) :
    p.Leads o (xs.forM f) fun _ _ => True := by
  induction xs generalizing p with
  | nil => exact leads_pure hp trivial
  | cons x xs ih =>
    show p.Leads o (f x >>= fun _ => xs.forM f) fun _ _ => True
    refine (hf x List.mem_cons_self p hp (.refl p)).bind fun _ q hq hpq _ => ?_
    exact ih hq fun y hy r hr hqr => hf y (List.mem_cons_of_mem x hy) r hr (hpq.trans hqr)

theorem leads_mapM {xs : List β} {f : β → Drafting α} (hp : p.Valid o)
    (hstable : ∀ a q r, q.Extends r → Q a q → Q a r)
    (hf : ∀ x ∈ xs, ∀ q, q.Valid o → p.Extends q → q.Leads o (f x) Q) :
    p.Leads o (xs.mapM f) fun as q => ∀ a ∈ as, Q a q := by
  induction xs generalizing p with
  | nil => exact leads_pure hp (by simp)
  | cons x xs ih =>
    rw [List.mapM_cons]
    refine (hf x List.mem_cons_self p hp (.refl p)).bind fun a q hq hpq ha => ?_
    have hrest := ih hq fun y hy r hr hqr =>
      hf y (List.mem_cons_of_mem x hy) r hr (hpq.trans hqr)
    refine hrest.bind fun as r hr hqr has => leads_pure hr ?_
    rw [List.forall_mem_cons]
    -- What the first step led to is so behind the later ones.
    exact ⟨hstable a q r hqr ha, has⟩

/-! ### Symbols -/

theorem Valid.exists_kind (hp : p.Valid o) (hs : p.Operand s) :
    ∃ k, p.draft.kind? s = some k := by
  rcases hs with hs | hs
  · exact ⟨_, hs⟩
  · exact ⟨_, hp.lexemes s hs⟩

/-- A plan with other symbols, but with the same rules and the same use of symbols, is
    valid if it extends a valid one. -/
theorem Valid.of_extends (hp : p.Valid o) (hpq : p.Extends q)
    (hanonymous : q.draft.anonymous = p.draft.anonymous)
    (hcharacters : q.draft.characters = p.draft.characters)
    (hlexemes : q.draft.lexemes = p.draft.lexemes)
    (hdiscards : q.draft.discards = p.draft.discards)
    (hstructural : q.draft.structural = p.draft.structural)
    (hlexical : q.draft.lexical = p.draft.lexical) : q.Valid o where
  structuralNames s hs := by
    obtain ⟨hkind, htier⟩ := hp.structuralNames s hs
    exact ⟨hpq.nonterminal hkind, (hpq.tiers s _ hkind).mpr htier⟩
  lexicalNames i hi := hpq.lexed (hp.lexicalNames i hi)
  anonymous e he := hpq.lexeme (hp.anonymous e (hanonymous ▸ he))
  characters e he := hpq.character (hp.characters e (hcharacters ▸ he))
  lexemes s hs := hpq.lexeme (hp.lexemes s (hlexemes ▸ hs))
  discards s hs := hpq.lexeme (hp.discards s (hdiscards ▸ hs))
  structural r hr := by
    obtain ⟨hlhs, hrhs⟩ := hp.structural r (hstructural ▸ hr)
    exact ⟨hpq.nonterminal hlhs, fun s hs => hpq.operand (hrhs s hs)⟩
  lexical r hr := by
    obtain ⟨hlhs, hrhs⟩ := hp.lexical r (hlexical ▸ hr)
    exact ⟨hpq.lexed hlhs, fun s hs => hpq.part (hrhs s hs)⟩
  passesOn r hr htier hsplice := by
    have hr' : r ∈ p.draft.structural.toList := hstructural ▸ hr
    obtain ⟨hlhs, hrhs⟩ := hp.structural r hr'
    obtain ⟨s, hs, hmask, hstier⟩ :=
      hp.passesOn r hr' ((hpq.tiers _ _ hlhs).mp htier) hsplice
    obtain ⟨k, hk⟩ := hp.exists_kind (hrhs s (by simp [hs]))
    exact ⟨s, hs, hmask, (hpq.tiers s k hk).mpr hstier⟩

/-- A plan with one more symbol, given whether it is the symbol of a tier. -/
def withSymbol (p : Plan) (name : String) (kind : SymbolKind) (offset : Nat) (tier : Prop) :
    Plan where
  draft := { p.draft with
    symbols := p.draft.symbols.push ⟨name, kind⟩
    offsets := p.draft.offsets.push offset }
  tiers s := if s = p.draft.symbols.size then tier else p.tiers s

theorem kind?_withSymbol (p : Plan) (name : String) (kind : SymbolKind) (offset : Nat)
    (tier : Prop) (s : SymbolId) :
    (p.withSymbol name kind offset tier).draft.kind? s =
      if s = p.draft.symbols.size then some kind else p.draft.kind? s := by
  rw [Draft.kind?, withSymbol, Array.getElem?_push]
  split <;> rfl

theorem extends_withSymbol (p : Plan) (name : String) (kind : SymbolKind) (offset : Nat)
    (tier : Prop) : p.Extends (p.withSymbol name kind offset tier) := by
  -- The new symbol is behind all others, so that none of them is taken for it.
  have hne (s : SymbolId) (k : SymbolKind) (hs : p.draft.kind? s = some k) :
      s ≠ p.draft.symbols.size := by
    rintro rfl
    rw [Draft.kind?, Array.getElem?_eq_none (Nat.le_refl _)] at hs
    cases hs
  refine ⟨fun s k hs => Or.inl ?_, fun s hs => hs, fun s k hs => ?_⟩
  · rw [kind?_withSymbol, if_neg (hne s k hs), hs]
  · simp only [withSymbol, if_neg (hne s k hs)]

theorem Valid.withSymbol (hp : p.Valid o) (name : String) (kind : SymbolKind) (offset : Nat)
    (tier : Prop) : (p.withSymbol name kind offset tier).Valid o :=
  hp.of_extends (p.extends_withSymbol name kind offset tier) rfl rfl rfl rfl rfl rfl

/-- A new symbol plays the part it was added for. -/
theorem addSymbol_leads (hp : p.Valid o) (name : String) (kind : SymbolKind) (offset : Nat)
    (tier : Prop) :
    p.Leads o (Drafting.addSymbol name kind offset) fun s q =>
      q.draft.kind? s = some kind ∧ (q.tiers s ↔ tier) := by
  intro s d h
  obtain ⟨rfl, rfl⟩ := Prod.mk.inj (Except.ok.inj h)
  refine ⟨p.withSymbol name kind offset tier, rfl, hp.withSymbol name kind offset tier,
    p.extends_withSymbol name kind offset tier, ?_, ?_⟩
  · rw [kind?_withSymbol, if_pos rfl]
  · simp only [withSymbol, if_true]

/-! ### Rules -/

/-- A structural rule may be added that has symbols of structural rules, and that passes
    a value on if it is a spliced one of a tier. -/
theorem addRule_structural_leads (hp : p.Valid o) {r : Rule} (hlhs : p.Nonterminal r.lhs)
    (hrhs : ∀ s ∈ r.rhs, p.Operand s)
    (hpasses : p.tiers r.lhs → r.isSplice = true →
      ∃ s, r.rhs = [s] ∧ r.mask = [true] ∧ p.tiers s) :
    p.Leads o (Drafting.addRule .structural r) fun _ _ => True := by
  have hmem {r' : Rule} (h : r' ∈ (p.draft.structural.push r).toList) :
      r' ∈ p.draft.structural.toList ∨ r' = r := by
    simpa using h
  let q : Plan := ⟨{ p.draft with structural := p.draft.structural.push r }, p.tiers⟩
  have hpq : p.Extends q := .of_eq rfl rfl rfl
  have hq : q.Valid o := by
    refine ⟨hp.structuralNames, hp.lexicalNames, hp.anonymous, hp.characters, hp.lexemes,
      hp.discards, fun r' hr' => ?_, hp.lexical, fun r' hr' => ?_⟩
    · rcases hmem hr' with h | rfl
      · exact hp.structural r' h
      · exact ⟨hlhs, hrhs⟩
    · rcases hmem hr' with h | rfl
      · exact hp.passesOn r' h
      · exact hpasses
  have hadd : p.Leads o (Drafting.addRule .structural r) fun _ q' => q' = q :=
    leads_modify hq hpq rfl
  exact hadd.imp fun _ _ _ _ => trivial

/-- A rule that is not spliced may be added to any symbol with structural rules. -/
theorem addApply_leads (hp : p.Valid o) {lhs : SymbolId} {rhs : List SymbolId}
    (hlhs : p.Nonterminal lhs) (hrhs : ∀ s ∈ rhs, p.Operand s) (name : String)
    (action : Option Action) (mask : List Bool) (rank : Int) :
    p.Leads o (Drafting.addRule .structural ⟨lhs, rhs, name, .apply action, mask, rank⟩)
      fun _ _ => True :=
  addRule_structural_leads hp hlhs hrhs fun _ hsplice => by simp [Rule.isSplice] at hsplice

/-- A spliced rule that hands the value of a tier on may be added to any symbol. -/
theorem addHand_leads (hp : p.Valid o) {lhs tier : SymbolId} (hlhs : p.Nonterminal lhs)
    (htier : p.Nonterminal tier ∧ p.tiers tier) (name : String) :
    p.Leads o (Drafting.addPlain .structural lhs [tier] name .splice 0) fun _ _ => True :=
  addRule_structural_leads hp hlhs (List.forall_mem_singleton.mpr (Or.inl htier.1))
    fun _ _ => ⟨tier, rfl, rfl, htier.2⟩

/-- A lexical rule may be added that has symbols of lexical rules. -/
theorem addPlain_lexical_leads (hp : p.Valid o) {lhs : SymbolId} {rhs : List SymbolId}
    (hlhs : p.Lexed lhs) (hrhs : ∀ s ∈ rhs, p.Part s) (name : String) (semantics : Semantics)
    (rank : Int) :
    p.Leads o (Drafting.addPlain .lexical lhs rhs name semantics rank) fun _ _ => True := by
  let r : Rule := ⟨lhs, rhs, name, semantics, rhs.map fun _ => true, rank⟩
  let q : Plan := ⟨{ p.draft with lexical := p.draft.lexical.push r }, p.tiers⟩
  have hpq : p.Extends q := .of_eq rfl rfl rfl
  have hq : q.Valid o := by
    refine ⟨hp.structuralNames, hp.lexicalNames, hp.anonymous, hp.characters, hp.lexemes,
      hp.discards, hp.structural, fun r' hr' => ?_, hp.passesOn⟩
    have hmem : r' ∈ p.draft.lexical.toList ∨ r' = r := by simpa [q] using hr'
    rcases hmem with h | rfl
    · exact hp.lexical r' h
    · exact ⟨hlhs, hrhs⟩
  have hadd : p.Leads o (Drafting.addRule .lexical r) fun _ q' => q' = q :=
    leads_modify hq hpq rfl
  exact hadd.imp fun _ _ _ _ => trivial

theorem addDeclared_leads (hp : p.Valid o) {level : Level} {lhs : SymbolId}
    {rhs : List SymbolId} {name : String} {semantics : Semantics} {rank : Int} {offset : Nat}
    (h : ∀ q, q.Valid o → p.Extends q →
      q.Leads o (Drafting.addPlain level lhs rhs name semantics rank) fun _ _ => True) :
    p.Leads o (Drafting.addDeclared level lhs rhs name semantics rank offset)
      fun _ _ => True := by
  rw [Drafting.addDeclared]
  refine leads_get_bind ?_
  split
  · exact leads_refuse _ _
  · -- Noting the alternative changes nothing that the invariant speaks of.
    let q : Plan :=
      ⟨{ p.draft with declared := (level, lhs, rhs) :: p.draft.declared }, p.tiers⟩
    have hpq : p.Extends q := .of_eq rfl rfl rfl
    have hq : q.Valid o := hp.of_extends hpq rfl rfl rfl rfl rfl rfl
    refine (leads_set hq hpq rfl).bind fun _ q' hq' hpq' _ => ?_
    exact h q' hq' hpq'

end Plan

end Scannerless
