import Scannerless.Proofs.Grammar.FaultPlaces
import Scannerless.Proofs.Grammar.Tiers

/-!
# Declared rules

A rule that the author wrote is declared with its name and the symbols of its right side, and it
must not be declared again. Equal elements have equal symbols, also in different statements and
whatever has been read between them: names have those of the outline, and terminals are known by
their spelling. So no two steps declare alternatives with the same items, unless the operands of a
tier stand for others because of their associativity.

## Main definitions

- `Alternative.Alike` — two alternatives have the same items.
- `Alternative.SameLimits` — their operands stand for the same tiers.
- `Draft.Declares` — what is declared between two drafts.
- `Drafting.Within` — a step runs within others.

## Main statements

- `Drafting.not_within_twice` — no two steps declare the same rule.
- `Drafting.declares_of_plainAlternative`, `Drafting.declares_of_tierAlternative`,
  `Drafting.declares_of_lexicalAlternative` — what alternatives declare.
-/

namespace Scannerless

namespace Alternative

/-- Alternatives have the same items: their elements are the same however they are spelled, and so
    are their quantifiers. -/
def Alike (a b : Alternative) : Prop :=
  List.Forall₂ (fun x y => Element.decode x.element = Element.decode y.element ∧
    x.quantifier = y.quantifier) a.rhs b.rhs

/-- No item of an alternative has a quantifier. -/
def IsPlain (a : Alternative) : Prop :=
  ∀ item ∈ a.rhs, item.quantifier = .one

/-- The only item of an alternative may occur many times. -/
def IsSequence (a : Alternative) : Prop :=
  ∃ item, a.rhs = [item] ∧ (item.quantifier = .star ∨ item.quantifier = .plus)

/-- In a tier, the operands of two alternatives of a name have the same limits. -/
def SameLimits (name : String) (tier : Nat) (a b : Alternative) : Prop :=
  ∀ r r', RuleAdverbs.read false a.adverbs = .ok r → RuleAdverbs.read false b.adverbs = .ok r' →
    ∀ place < a.rhs.countP (RhsItem.isOperand name),
      r.associativity.limit? tier place (a.rhs.countP (RhsItem.isOperand name)) =
        r'.associativity.limit? tier place (a.rhs.countP (RhsItem.isOperand name))

end Alternative

variable {o : Outline} {name : String} {a b : Alternative} {level : Level}

/-! ### Equal elements, equal symbols -/

/-- What the elements of a list come to is decided by the elements. -/
theorem eq_of_forall₂ {α β : Type} {R R' : α → β → Prop} {S : α → α → Prop} {xs ys : List α}
    {us vs : List β} (h : List.Forall₂ S xs ys) (hus : List.Forall₂ R xs us)
    (hvs : List.Forall₂ R' ys vs) (hunique : ∀ x y u v, S x y → R x u → R' y v → u = v) :
    us = vs := by
  induction h generalizing us vs with
  | nil =>
    cases hus
    cases hvs
    rfl
  | cons hxy _ ih =>
    cases hus with
    | cons hu hus =>
      cases hvs with
      | cons hv hvs => rw [hunique _ _ _ _ hxy hu hv, ih hus hvs]

namespace Draft

variable {d d' : Draft}

theorem Retains.standsFor (h : d.Retains d') {raw : String} {s : SymbolId}
    (hs : d.StandsFor o raw s) : d'.StandsFor o raw s := by
  obtain ⟨e, he, hs⟩ := hs
  refine ⟨e, he, ?_⟩
  cases hs with
  | structural hid => exact .structural hid
  | lexical hname hid => exact .lexical hname hid
  | terminal ht hlookup => exact .terminal ht (h.anonymous _ _ hlookup)

/-- Among lexemes, an element has one symbol. -/
theorem StandsFor.unique {raw raw' : String} {s s' : SymbolId} (hs : d.StandsFor o raw s)
    (hs' : d.StandsFor o raw' s') (hsame : Element.decode raw = Element.decode raw') : s = s' := by
  obtain ⟨e, he, hs⟩ := hs
  obtain ⟨e', he', hs'⟩ := hs'
  obtain rfl := Except.ok.inj (he.symm.trans (hsame.trans he'))
  cases hs with
  | structural hid =>
    cases hs' with
    | structural hid' => exact Option.some.inj (hid.symm.trans hid')
    | lexical hname' _ => cases hid.symm.trans hname'
  | lexical hname hid =>
    cases hs' with
    | structural hid' => cases hid'.symm.trans hname
    | lexical _ hid' => exact Option.some.inj (hid.symm.trans hid')
  | terminal _ hlookup =>
    cases hs' with
    | terminal _ hlookup' => exact Option.some.inj (hlookup.symm.trans hlookup')

/-- The symbols of the characters of an element, or that of its name. -/
inductive ReadsAs (o : Outline) (d : Draft) (raw : String) : List SymbolId → Prop where
  | terminal {t : Terminal} {body : List SymbolId} (hraw : Element.decode raw = .ok (.terminal t))
      (h : List.Forall₂ (fun cls s => d.characters.lookup cls.spelling = some s) t.classes body) :
      ReadsAs o d raw body
  | name {name : String} {s : SymbolId} (hraw : Element.decode raw = .ok (.name name))
      (h : o.lexicalId? name = some s) : ReadsAs o d raw [s]

theorem Retains.readsAs (h : d.Retains d') {raw : String} {body : List SymbolId}
    (hbody : d.ReadsAs o raw body) : d'.ReadsAs o raw body := by
  cases hbody with
  | terminal hraw hbody => exact .terminal hraw (hbody.imp fun _ _ => h.characters _ _)
  | name hraw hid => exact .name hraw hid

/-- Among characters, an element has one list of symbols. -/
theorem ReadsAs.unique {raw raw' : String} {body body' : List SymbolId}
    (hbody : d.ReadsAs o raw body) (hbody' : d.ReadsAs o raw' body')
    (hsame : Element.decode raw = Element.decode raw') : body = body' := by
  cases hbody with
  | @terminal t _ hraw hall =>
    cases hbody' with
    | @terminal t' _ hraw' hall' =>
      obtain rfl : t = t' :=
        Element.terminal.inj (Except.ok.inj (hraw.symm.trans (hsame.trans hraw')))
      refine eq_of_forall₂ (List.forall₂_eq_eq_eq ▸ rfl) hall hall' ?_
      rintro cls _ s s' rfl hs hs'
      exact Option.some.inj (hs.symm.trans hs')
    | name hraw' _ => cases hraw.symm.trans (hsame.trans hraw')
  | @name name _ hraw hid =>
    cases hbody' with
    | terminal hraw' _ => cases hraw.symm.trans (hsame.trans hraw')
    | @name name' _ hraw' hid' =>
      obtain rfl : name = name' :=
        Element.name.inj (Except.ok.inj (hraw.symm.trans (hsame.trans hraw')))
      rw [Option.some.inj (hid.symm.trans hid')]

end Draft

namespace Alternative

variable {d d' : Draft} {lhs current tighter : SymbolId} {rhs rhs' : List SymbolId}

/-- The right side that an alternative has among lexemes. -/
def HasSymbols (alt : Alternative) (o : Outline) (d : Draft) (rhs : List SymbolId) : Prop :=
  List.Forall₂ (fun item s => d.StandsFor o item.element s) alt.rhs rhs

/-- The right side that an alternative has in a tier. -/
def HasTierSymbols (alt : Alternative) (o : Outline) (name : String)
    (lhs current tighter : SymbolId) (d : Draft) (rhs : List SymbolId) : Prop :=
  ∃ adverbs symbols, RuleAdverbs.read false alt.adverbs = .ok adverbs ∧
    alt.HasSymbols o d symbols ∧
    placeOperands adverbs.associativity lhs current tighter true
      (alt.rhs.map (RhsItem.isOperand name)) symbols = rhs

/-- The right side that an alternative without quantifiers has among characters. -/
def HasCharacters (alt : Alternative) (o : Outline) (d : Draft) (rhs : List SymbolId) : Prop :=
  ∃ parts, List.Forall₂ (fun item body => d.ReadsAs o item.element body) alt.rhs parts ∧
    parts.flatten = rhs

theorem Alike.symm (halike : a.Alike b) : b.Alike a :=
  (List.Forall₂.flip halike).imp fun _ _ h => ⟨h.1.symm, h.2.symm⟩

theorem Alike.isPlain (halike : a.Alike b) (ha : a.IsPlain) : b.IsPlain := by
  intro item hitem
  obtain ⟨item', hitem', -, hquantifier⟩ := exists_mem_of_forall₂ (List.Forall₂.flip halike) hitem
  rw [← hquantifier, ha item' hitem']

theorem IsSequence.not_isPlain (ha : a.IsSequence) : ¬a.IsPlain := by
  obtain ⟨item, hitem, hq⟩ := ha
  intro hplain
  rw [hplain item (by rw [hitem]; exact List.mem_singleton_self item)] at hq
  simp at hq

theorem HasSymbols.retains (hretains : d.Retains d') (h : a.HasSymbols o d rhs) :
    a.HasSymbols o d' rhs :=
  h.imp fun _ _ => hretains.standsFor

theorem HasSymbols.unique (halike : a.Alike b) (ha : a.HasSymbols o d rhs)
    (hb : b.HasSymbols o d rhs') : rhs = rhs' :=
  eq_of_forall₂ halike ha hb fun _ _ _ _ hsame hs hs' => hs.unique hs' hsame.1

theorem HasCharacters.retains (hretains : d.Retains d') (h : a.HasCharacters o d rhs) :
    a.HasCharacters o d' rhs := by
  obtain ⟨parts, hparts, hrhs⟩ := h
  exact ⟨parts, hparts.imp fun _ _ => hretains.readsAs, hrhs⟩

theorem HasCharacters.unique (halike : a.Alike b) (ha : a.HasCharacters o d rhs)
    (hb : b.HasCharacters o d rhs') : rhs = rhs' := by
  obtain ⟨parts, hparts, rfl⟩ := ha
  obtain ⟨parts', hparts', rfl⟩ := hb
  rw [eq_of_forall₂ halike hparts hparts' fun _ _ _ _ hsame hbody hbody' =>
    hbody.unique hbody' hsame.1]

theorem HasTierSymbols.retains (hretains : d.Retains d')
    (h : a.HasTierSymbols o name lhs current tighter d rhs) :
    a.HasTierSymbols o name lhs current tighter d' rhs := by
  obtain ⟨adverbs, symbols, hread, hsymbols, hrhs⟩ := h
  exact ⟨adverbs, symbols, hread, hsymbols.retains hretains, hrhs⟩

/-- The operand at a place is decided by its limit. -/
theorem operand_congr (lhs : SymbolId) {x y : Associativity} {tier place count : Nat}
    (hzero : tier = 0 → tighter = current)
    (h : x.limit? tier place count = y.limit? tier place count) :
    x.operand lhs current tighter (place == 0) (place + 1 == count) =
      y.operand lhs current tighter (place == 0) (place + 1 == count) := by
  -- Limits of different associativities agree in the tightest tier, which is next to itself.
  cases x <;> cases y <;> simp only [Associativity.limit?, Option.some.injEq, reduceCtorEq] at h <;>
    simp only [Associativity.operand, beq_iff_eq] <;> split_ifs at h ⊢ <;>
    first | rfl | exact hzero (by omega) | exact (hzero (by omega)).symm

/-- Right sides are the same if their operands have the same limits. -/
theorem placeOperands_congr {x y : Associativity} {tier : Nat}
    (hzero : tier = 0 → tighter = current) {operands : List Bool} (before : Nat)
    (h : ∀ place, before ≤ place → place < before + operands.count true →
      x.limit? tier place (before + operands.count true) =
        y.limit? tier place (before + operands.count true)) (symbols : List SymbolId) :
    placeOperands x lhs current tighter (before == 0) operands symbols =
      placeOperands y lhs current tighter (before == 0) operands symbols := by
  induction operands generalizing before symbols with
  | nil => cases symbols <;> rfl
  | cons isOperand operands ih =>
    cases symbols with
    | nil => cases isOperand <;> rfl
    | cons s symbols =>
      cases isOperand with
      | false =>
        rw [List.count_cons_of_ne (by decide)] at h
        rw [placeOperands, placeOperands, ih before h]
      | true =>
        rw [List.count_cons_self, ← Nat.add_assoc, Nat.add_right_comm] at h
        have hlast : (!operands.contains true) =
            (before + 1 == before + 1 + operands.count true) := by
          rw [Bool.eq_iff_iff, Bool.not_eq_true', ← Bool.not_eq_true, List.contains_iff_mem,
            beq_iff_eq, Nat.left_eq_add, List.count_eq_zero]
        have hrest := ih (before + 1)
          (fun place hle hlt => h place (Nat.le_of_succ_le hle) hlt) symbols
        have hoperand := operand_congr lhs hzero (h before (Nat.le_refl _) (by omega))
        rw [placeOperands, placeOperands, hlast, hoperand]
        exact congrArg _ hrest

theorem HasTierSymbols.unique {tier : Nat} (halike : a.Alike b) (hlimits : a.SameLimits name tier b)
    (hzero : tier = 0 → tighter = current)
    (ha : a.HasTierSymbols o name lhs current tighter d rhs)
    (hb : b.HasTierSymbols o name lhs current tighter d rhs') : rhs = rhs' := by
  obtain ⟨adverbs, symbols, hread, hsymbols, rfl⟩ := ha
  obtain ⟨adverbs', symbols', hread', hsymbols', rfl⟩ := hb
  have hoperands : a.rhs.map (RhsItem.isOperand name) = b.rhs.map (RhsItem.isOperand name) := by
    rw [← List.forall₂_eq_eq_eq, List.forall₂_map_left_iff, List.forall₂_map_right_iff]
    exact halike.imp fun x y hsame => by rw [RhsItem.isOperand, RhsItem.isOperand, hsame.1]
  rw [hsymbols.unique halike hsymbols', ← hoperands]
  refine placeOperands_congr hzero 0 (fun place _ hlt => ?_) symbols'
  have hcount : (a.rhs.map (RhsItem.isOperand name)).count true =
      a.rhs.countP (RhsItem.isOperand name) := by
    rw [List.count_eq_countP, List.countP_map]
    exact List.countP_congr fun item _ => by simp
  rw [hcount, Nat.zero_add] at hlt ⊢
  exact hlimits _ _ hread hread' place hlt

end Alternative

namespace Draft

variable {d d' : Draft}

/-- A rule of a symbol is declared between two drafts. Its right side has a property of the later
    one. -/
def Declares (level : Level) (lhs : SymbolId) (R : Draft → List SymbolId → Prop) (d d' : Draft) :
    Prop :=
  ∃ rhs, R d' rhs ∧ (level, lhs, rhs) ∉ d.declared ∧ (level, lhs, rhs) ∈ d'.declared

end Draft

namespace Drafting

variable {d d' : Draft} {α β : Type} {lhs : SymbolId}

/-! ### Steps within others -/

theorem Keeps.retains {m : Drafting α} {x : α} (hm : m.Keeps o fun _ => True)
    (h : m.run d = .ok (x, d')) : d.Retains d' :=
  (hm.ok h fun _ _ => trivial).2

/-- A step runs somewhere between two drafts. -/
def Within (m : Drafting Unit) (d d' : Draft) : Prop :=
  ∃ e e', m.run e = .ok ((), e') ∧ d.Retains e ∧ e'.Retains d'

theorem Within.of_run {m : Drafting Unit} {u : Unit} (h : m.run d = .ok (u, d')) :
    Within m d d' :=
  ⟨d, d', h, .refl d, .refl d'⟩

section Loops

variable {xs : List β} {f : β → Drafting Unit} {x y : β}

/-- A loop runs its passes. -/
theorem Within.of_mem (hf : ∀ x ∈ xs, (f x).Keeps o fun _ => True) (h : Within (xs.forM f) d d')
    (hx : x ∈ xs) : Within (f x) d d' := by
  obtain ⟨e, e', hrun, he, he'⟩ := h
  induction xs generalizing d e with
  | nil => cases hx
  | cons z zs ih =>
    obtain ⟨e₁, hz, hzs⟩ := run_forM_cons.mp hrun
    rw [List.forall_mem_cons] at hf
    rcases List.mem_cons.mp hx with rfl | hx
    · exact ⟨e, e₁, hz, he, ((forM_keeps hf.2).retains hzs).trans he'⟩
    · exact ih hf.2 hx e₁ hzs (he.trans (hf.1.retains hz))

/-- A loop runs its passes one after the other. -/
theorem exists_within_of_sublist (hf : ∀ x ∈ xs, (f x).Keeps o fun _ => True) {u : Unit}
    (h : (xs.forM f).run d = .ok (u, d')) (hxy : [x, y].Sublist xs) :
    ∃ e, Within (f x) d e ∧ Within (f y) e d' := by
  induction xs generalizing d with
  | nil => cases hxy
  | cons z zs ih =>
    obtain ⟨e, hz, hzs⟩ := run_forM_cons.mp h
    rw [List.forall_mem_cons] at hf
    cases hxy with
    | cons _ hxy =>
      obtain ⟨e₁, ⟨e₂, e₂', hrun, he₂, he₂'⟩, hy⟩ := ih hf.2 hzs hxy
      exact ⟨e₁, ⟨e₂, e₂', hrun, (hf.1.retains hz).trans he₂, he₂'⟩, hy⟩
    | cons_cons _ hy =>
      exact ⟨e, .of_run hz, (Within.of_run hzs).of_mem hf.2 (List.singleton_sublist.mp hy)⟩

end Loops

/-- What two steps declare is not the same. A step that would declare it again does not run. -/
theorem not_within_twice {m m' : Drafting Unit} {R R' : Draft → List SymbolId → Prop} {e : Draft}
    (hm : ∀ {d d'}, m.run d = .ok ((), d') → d.Declares level lhs R d')
    (hm' : ∀ {d d'}, m'.run d = .ok ((), d') → d.Declares level lhs R' d')
    (hkeeps : m'.Keeps o fun _ => True)
    (hR : ∀ {d d' rhs}, d.Retains d' → R d rhs → R d' rhs)
    (hunique : ∀ {d rhs rhs'}, R d rhs → R' d rhs' → rhs = rhs') (h : Within m d e) :
    ¬Within m' e d' := by
  rintro ⟨e₂, e₂', hrun', he₂, -⟩
  obtain ⟨e₁, e₁', hrun, -, he₁'⟩ := h
  obtain ⟨rhs, hrhs, -, hdeclared⟩ := hm hrun
  obtain ⟨rhs', hrhs', hnew, -⟩ := hm' hrun'
  have hretains := he₁'.trans he₂
  obtain rfl := hunique (hR (hretains.trans (hkeeps.retains hrun')) hrhs) hrhs'
  exact hnew (hretains.declared hdeclared)

/-- What each step of a list makes of its element still holds behind the last one, if drafts retain
    it. -/
theorem forall₂_of_mapM {xs : List β} {f : β → Drafting α} {ys : List α}
    {R : Draft → β → α → Prop} (h : (xs.mapM f).run d = .ok (ys, d'))
    (hR : ∀ {d d' x y}, d.Retains d' → R d x y → R d' x y)
    (hkeeps : ∀ x, (f x).Keeps o fun _ => True)
    (hf : ∀ x ∈ xs, ∀ {d d' y}, (f x).run d = .ok (y, d') → R d' x y) :
    List.Forall₂ (R d') xs ys := by
  apply mapM_induction (P := fun xs ys e => List.Forall₂ (R e) xs ys) h
  · exact .nil
  rintro xs ys x y e e' hx hys hrun
  have hretains := (hkeeps x).retains hrun
  exact List.rel_append (hys.imp fun _ _ => hR hretains) (.cons (hf x hx hrun) .nil)

variable {alt : Alternative} {offset : Nat} {u : Unit}

/-- What is declared behind a step that retains the rules before it. -/
theorem declares_of_addDeclared {m : Drafting α} {x : α} {e : Draft}
    {R : Draft → List SymbolId → Prop} {rhs : List SymbolId} {semantics : Semantics} {rank : Int}
    (hm : m.Keeps o fun _ => True) (hrun : m.run d = .ok (x, e))
    (hR : ∀ {d'}, e.Retains d' → R d' rhs)
    (h : (addDeclared level lhs rhs name semantics rank offset).run e = .ok (u, d')) :
    d.Declares level lhs R d' := by
  obtain ⟨hnew, hdeclared⟩ := declared_of_addDeclared h
  have hadd : (addDeclared level lhs rhs name semantics rank offset).Keeps o fun _ => True :=
    addDeclared_keeps level lhs rhs name semantics rank trivial
  refine ⟨rhs, hR (hadd.retains h), fun hold => ?_, hdeclared⟩
  exact hnew ((hm.retains hrun).declared hold)

/-! ### Structural alternatives -/

theorem standsFor_of_structuralSymbol {raw : String} {s : SymbolId}
    (h : (structuralSymbol o raw offset).run d = .ok (s, d')) : d'.StandsFor o raw s := by
  obtain ⟨e, d₁, he, h⟩ := run_bind.mp h
  obtain ⟨hdecode, rfl⟩ := run_lift.mp he
  replace he := Element.decodeAt_eq_ok.mp hdecode
  cases e with
  | name name =>
    simp only at h
    split at h
    next id hid =>
      obtain ⟨rfl, rfl⟩ := run_pure.mp h
      exact ⟨_, he, .structural hid⟩
    next hnone =>
      obtain ⟨id, d₂, hnamed, h⟩ := run_bind.mp h
      obtain ⟨_, d₃, -, h⟩ := run_bind.mp h
      obtain ⟨rfl, rfl⟩ := run_pure.mp h
      rw [namedLexeme] at hnamed
      split at hnamed
      next id' hid =>
        obtain ⟨_, d₄, -, hpure⟩ := run_bind.mp hnamed
        obtain ⟨rfl, -⟩ := run_pure.mp hpure
        exact ⟨_, he, .lexical hnone hid⟩
      next => exact absurd hnamed run_refuse
  | terminal t =>
    obtain ⟨id, d₂, hanonymous, h⟩ := run_bind.mp h
    have hstands : d₂.StandsFor o raw id :=
      ⟨_, he, .terminal ⟨raw, he⟩ (lookup_of_anonymousLexeme hanonymous)⟩
    have hretains : d₂.Retains d' := (useLexeme_keeps (o := o) id).retains h
    obtain ⟨_, d₃, -, h⟩ := run_bind.mp h
    obtain ⟨rfl, rfl⟩ := run_pure.mp h
    exact hretains.standsFor hstands

theorem standsFor_of_structuralSymbols {items : List RhsItem} {ss : List SymbolId}
    (h : (structuralSymbols o items).run d = .ok (ss, d')) :
    List.Forall₂ (fun item s => d'.StandsFor o item.element s) items ss := by
  rw [structuralSymbols] at h
  exact forall₂_of_mapM (R := fun e (item : RhsItem) s => e.StandsFor o item.element s) h
    (fun hretains => hretains.standsFor)
    (fun item => structuralSymbol_keeps item.element trivial)
    fun _ _ => standsFor_of_structuralSymbol

theorem declares_of_plainAlternative
    (h : (plainAlternative o lhs name alt).run d = .ok (u, d')) :
    d.Declares .structural lhs (alt.HasSymbols o) d' := by
  obtain ⟨adverbs, d₁, hadverbs, h⟩ := run_bind.mp h
  obtain ⟨-, rfl⟩ := run_lift.mp hadverbs
  obtain ⟨rhs, d₂, hrhs, h⟩ := run_bind.mp h
  exact declares_of_addDeclared (structuralSymbols_keeps fun _ _ => trivial) hrhs
    (fun hretains => (Alternative.HasSymbols.retains hretains)
      (standsFor_of_structuralSymbols hrhs)) h

/-- In a tier, an alternative also declares the tiers of its operands. -/
theorem declares_of_tierAlternative {current tighter : SymbolId}
    (h : (tierAlternative o lhs name current tighter alt).run d = .ok (u, d')) :
    d.Declares .structural current (alt.HasTierSymbols o name lhs current tighter) d' := by
  rw [tierAlternative] at h
  split at h
  · exact absurd h run_refuse
  obtain ⟨adverbs, d₀, hadverbs, helements⟩ := run_bind.mp h
  obtain ⟨hread, rfl⟩ := run_lift.mp hadverbs
  obtain ⟨elements, d₁, helements, hrhs⟩ := run_bind.mp helements
  obtain ⟨rfl, hoperands⟩ : d₁ = d ∧
      elements.map (· == Element.name name) = alt.rhs.map (RhsItem.isOperand name) :=
    decodeAll_run helements
  obtain ⟨rhs, d₂, hrhs, hadd⟩ := run_bind.mp hrhs
  simp only [hoperands] at hadd
  exact declares_of_addDeclared (structuralSymbols_keeps fun _ _ => trivial) hrhs
    (fun hretains => ⟨adverbs, rhs, hread, (Alternative.HasSymbols.retains hretains)
      (standsFor_of_structuralSymbols hrhs), rfl⟩) hadd

/-! ### Lexical alternatives -/

theorem lookup_of_characterSymbols {t : Terminal} {ss : List SymbolId}
    (h : (characterSymbols t offset).run d = .ok (ss, d')) :
    List.Forall₂ (fun cls s => d'.characters.lookup cls.spelling = some s) t.classes ss := by
  rw [characterSymbols] at h
  exact forall₂_of_mapM (o := .empty)
    (R := fun e cls s => e.characters.lookup cls.spelling = some s) h
    (fun hretains => hretains.characters _ _) (fun cls => characterSymbol_keeps cls trivial)
    fun _ _ => lookup_of_characterSymbol

theorem readsAs_of_lexicalBody {item : RhsItem} {body : List SymbolId}
    (h : (lexicalBody o lhs item).run d = .ok (body, d')) : d'.ReadsAs o item.element body := by
  obtain ⟨e, d₁, he, h⟩ := run_bind.mp h
  obtain ⟨hdecode, rfl⟩ := run_lift.mp he
  replace he := Element.decodeAt_eq_ok.mp hdecode
  cases e with
  | terminal t => exact .terminal he (lookup_of_characterSymbols h)
  | name name =>
    simp only at h
    split at h
    · exact absurd h run_refuse
    · split at h
      · exact absurd h run_refuse
      next id hid =>
        obtain ⟨_, d₂, -, h⟩ := run_bind.mp h
        obtain ⟨rfl, rfl⟩ := run_pure.mp h
        exact .name he hid

theorem readsAs_of_lexicalItem {item : RhsItem} {body : List SymbolId}
    (hone : item.quantifier = .one)
    (h : (lexicalItem o lhs name item).run d = .ok (body, d')) :
    d'.ReadsAs o item.element body := by
  obtain ⟨body', d₁, hbody, h⟩ := run_bind.mp h
  rw [if_pos hone] at h
  obtain ⟨rfl, rfl⟩ := run_pure.mp h
  exact readsAs_of_lexicalBody hbody

/-- A lexical alternative without quantifiers declares the symbols of its elements. -/
theorem declares_of_lexicalAlternative (halt : alt.IsPlain)
    (h : (lexicalAlternative o lhs name alt).run d = .ok (u, d')) :
    d.Declares .lexical lhs (alt.HasCharacters o) d' := by
  rw [lexicalAlternative] at h
  split at h
  · exact absurd h run_refuse
  obtain ⟨parts, d₁, hparts, h⟩ := run_bind.mp h
  have hreads : List.Forall₂ (fun item body => d₁.ReadsAs o item.element body) alt.rhs parts :=
    forall₂_of_mapM (R := fun e item body => e.ReadsAs o item.element body) hparts
      (fun hretains => hretains.readsAs) (fun _ => lexicalItem_keeps lhs name trivial)
      fun item hitem => readsAs_of_lexicalItem (halt item hitem)
  exact declares_of_addDeclared
    (mapM_keeps fun item _ => lexicalItem_keeps lhs name trivial) hparts
    (fun hretains => ⟨parts, hreads.imp fun _ _ => hretains.readsAs, rfl⟩) h

end Drafting

end Scannerless
