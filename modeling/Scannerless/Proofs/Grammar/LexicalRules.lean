import Scannerless.Definition
import Scannerless.Proofs.Grammar.Elements

/-!
# The rules of lexical statements

Every alternative of a lexical definition becomes one rule of its name. An item without a
quantifier stands for the symbols of its element, one with a quantifier for a symbol of its
own, whose rules have the element none, one or more times.

## Main definitions

- `lexicalAlternatives` — the alternatives of a name in all statements.
- `Draft.Body`, `Draft.Part` — the symbols of an element and of an item.
- `Draft.Repeats` — the symbol of an item with a quantifier.
- `Draft.AlternativeRule` — the rule of an alternative.

## Main statements

- `Drafting.lexicalAlternative_run` — an alternative adds its rule, and those of symbols of
  its own.
- `Drafting.lexicalPass_run` — the rules of a name are those of its alternatives.
-/

namespace Scannerless

/-- The alternatives of a name in a statement. -/
def Statement.lexicalAlternatives (name : String) : Statement → List Alternative
  | .lexical lhs alternatives _ =>
    match Element.decode lhs with
    | .ok (.name defined) => if defined = name then alternatives else []
    | _ => []
  | _ => []

/-- The alternatives of a name in all statements, in the order they were written. -/
def lexicalAlternatives (ss : List Statement) (name : String) : List Alternative :=
  ss.flatMap (Statement.lexicalAlternatives name)

namespace Draft

variable {o : Outline} {d d' : Draft} {T : SymbolId → Prop} {S L : List Rule} {s : SymbolId}
  {body : List SymbolId}

/-- The symbols of an element of a lexical rule. -/
inductive Body (o : Outline) (d : Draft) : Element → List SymbolId → Prop where
  | terminal {t : Terminal} {ss : List SymbolId}
      (h : List.Forall₂ d.IsCharacter t.classes ss) : Body o d (.terminal t) ss
  | name {name : String} {s : SymbolId} (h : o.lexicalId? name = some s) :
      Body o d (.name name) [s]

/-- The symbols of the element with a given spelling. -/
def BodyFor (o : Outline) (d : Draft) (raw : String) (body : List SymbolId) : Prop :=
  ∃ e, Element.decode raw = .ok e ∧ d.Body o e body

/-- A symbol has the rules of an element with a quantifier, and no others. -/
def Repeats (o : Outline) (d : Draft) (q : Quantifier) (body : List SymbolId) (s : SymbolId) :
    Prop :=
  s < d.symbols.size ∧ ¬o.IsName s ∧ (d.rulesOf .lexical s).map (·.rhs) = q.alternatives s body

/-- The symbols of an item of a lexical rule. -/
inductive Part (o : Outline) (d : Draft) (item : RhsItem) : List SymbolId → Prop where
  | one {body : List SymbolId} (hq : item.quantifier = .one)
      (hbody : d.BodyFor o item.element body) : Part o d item body
  | repeated {body : List SymbolId} {s : SymbolId} (hq : item.quantifier ≠ .one)
      (hbody : d.BodyFor o item.element body) (hs : d.Repeats o item.quantifier body s) :
      Part o d item [s]

/-- A rule has the symbols of the items of an alternative. -/
def AlternativeRule (o : Outline) (d : Draft) (alt : Alternative) (r : Rule) : Prop :=
  ∃ parts, List.Forall₂ (d.Part o) alt.rhs parts ∧ r.rhs = parts.flatten

theorem Grows.bodyFor (h : d.Grows T S L d') {raw : String} (hbody : d.BodyFor o raw body) :
    d'.BodyFor o raw body := by
  obtain ⟨e, he, hbody⟩ := hbody
  refine ⟨e, he, ?_⟩
  cases hbody with
  | terminal hchars => exact .terminal (hchars.imp fun _ _ => h.isCharacter)
  | name hid => exact .name hid

theorem Grows.part (h : d.Grows T S L d') (hT : ∀ s, T s → o.IsName s) {item : RhsItem}
    (hpart : d.Part o item body) : d'.Part o item body := by
  cases hpart with
  | one hq hbody => exact .one hq (h.bodyFor hbody)
  | repeated hq hbody hs =>
    obtain ⟨hlt, hname, hrules⟩ := hs
    refine .repeated hq (h.bodyFor hbody) ⟨Nat.lt_of_lt_of_le hlt h.size_le, hname, ?_⟩
    rw [h.rulesOf_eq .lexical hlt fun howned => hname (hT _ howned), hrules]

theorem Grows.alternativeRule (h : d.Grows T S L d') (hT : ∀ s, T s → o.IsName s)
    {alt : Alternative} {r : Rule} (hr : d.AlternativeRule o alt r) :
    d'.AlternativeRule o alt r := by
  obtain ⟨parts, hparts, hrhs⟩ := hr
  exact ⟨parts, hparts.imp fun _ _ => h.part hT, hrhs⟩

end Draft

namespace Drafting

variable {o : Outline} {d d' : Draft} {s lhs : SymbolId} {name : String}

/-- The symbol of an element with a quantifier is new, and so are its rules. -/
theorem quantified_run {body : List SymbolId} {q : Quantifier} {offset : Nat}
    (h : (quantified name body q offset).run d = .ok (s, d')) (hd : d.Orderly o) :
    d'.Orderly o ∧ d'.Repeats o q body s ∧ ∃ L, d.Gains L d' := by
  obtain ⟨d, d, hget, h⟩ := run_bind.mp h
  obtain ⟨rfl, rfl⟩ := run_get.mp hget
  obtain ⟨id, d₁, hadd, h⟩ := run_bind.mp h
  obtain ⟨_, d₂, hrules, h⟩ := run_bind.mp h
  obtain ⟨rfl, rfl⟩ := run_pure.mp h
  obtain ⟨rfl, hsize, hsymbol, hgains, hd₁⟩ := addSymbol_grows hadd hd
  have hlt : d.symbols.size < d₁.symbols.size := Draft.lt_of_symbol hsymbol
  let rule : List SymbolId → Rule := fun rhs =>
    ⟨d.symbols.size, rhs, name ++ "[" ++ toString d.symbols.size ++ "]", .apply none,
      rhs.map fun _ => true, 0⟩
  have hadded : (((q.alternatives d.symbols.size body).map rule).forM (addRule .lexical)).run d₁ =
      .ok ((), d₂) := by
    rw [List.forM_eq_forM, List.forM_map]
    exact hrules
  have hloop : d₂ = { d₁ with
      lexical := d₁.lexical ++ ((q.alternatives d.symbols.size body).map rule).toArray } :=
    addRules_run hadded
  have hgrows : d₁.Grows (· = d.symbols.size) []
      ((q.alternatives d.symbols.size body).map rule) d₂ := by
    obtain rfl := hloop
    refine grows_lexical ?_ ?_
    · simp [rule]
    · simpa [rule] using fun _ _ => hlt
  have hopen : d₁.Open d.symbols.size :=
    hd₁.open_of_kind? (by simp [Draft.kind?, hsymbol])
  have hall : d.Gains ((q.alternatives d.symbols.size body).map rule) d₂ :=
    Draft.Grows.trans hgains hgrows fun s hs => Or.inr (Nat.le_of_eq hs.symm)
  have hd₂ : d₂.Orderly o := by
    obtain rfl := hloop
    exact hd₁.of_grows_eq hgrows (fun s hs => hs ▸ hopen) rfl rfl
  refine ⟨hd₂, ⟨Nat.lt_of_lt_of_le hlt hgrows.size_le, fun hname => ?_, ?_⟩, _, hall⟩
  · exact Nat.lt_irrefl _ (hd.lt_of_isName hname)
  · have hown : ((q.alternatives d.symbols.size body).map rule).filter
        (·.lhs == d.symbols.size) = (q.alternatives d.symbols.size body).map rule := by
      simp [rule]
    rw [hall.rulesOf_append, Draft.rulesOf_eq_nil hd .lexical (Nat.le_refl _), Level.pick, hown,
      List.nil_append, List.map_map]
    exact List.map_id _

/-- An element of a lexical rule becomes the symbols that stand for it. -/
theorem lexicalBody_run {item : RhsItem} {body : List SymbolId}
    (h : (lexicalBody o lhs item).run d = .ok (body, d')) (hd : d.Orderly o) :
    d'.Orderly o ∧ d'.BodyFor o item.element body ∧ d.Gains [] d' := by
  obtain ⟨e, d₁, he, h⟩ := run_bind.mp h
  obtain ⟨hdecode, rfl⟩ := run_lift.mp he
  replace he := Element.decodeAt_eq_ok.mp hdecode
  cases e with
  | terminal t =>
    obtain ⟨hspells, hgains, hchars, hanonymous⟩ :=
      characterSymbols_run h hd.characters ⟨item.element, he⟩
    refine ⟨hd.of_grows hgains (fun _ hfalse => hfalse.elim) hspells fun _ _ hs => ?_,
      ⟨_, he, .terminal hchars⟩, hgains⟩
    exact Or.inl (hanonymous ▸ hs)
  | name name =>
    simp only at h
    split at h
    · exact absurd h run_refuse
    · split at h
      · exact absurd h run_refuse
      next id hid =>
        obtain ⟨_, d₂, hmodify, h⟩ := run_bind.mp h
        obtain rfl := run_modify.mp hmodify
        obtain ⟨rfl, rfl⟩ := run_pure.mp h
        have hgains : d.Gains [] { d with references := d.references ++ [(lhs, id)] } :=
          .of_eq rfl rfl rfl (fun _ h => h) rfl rfl
        exact ⟨hd.of_grows_eq hgains (fun _ hfalse => hfalse.elim) rfl rfl,
          ⟨_, he, .name hid⟩, hgains⟩

theorem lexicalItem_run {item : RhsItem} {body : List SymbolId}
    (h : (lexicalItem o lhs name item).run d = .ok (body, d')) (hd : d.Orderly o) :
    d'.Orderly o ∧ d'.Part o item body ∧ ∃ L, d.Gains L d' := by
  obtain ⟨body', d₁, hbody, h⟩ := run_bind.mp h
  obtain ⟨hd₁, hfor, hgains⟩ := lexicalBody_run hbody hd
  split at h
  next hq =>
    obtain ⟨rfl, rfl⟩ := run_pure.mp h
    exact ⟨hd₁, .one hq hfor, [], hgains⟩
  next hq =>
    obtain ⟨id, d₂, hquantified, h⟩ := run_bind.mp h
    obtain ⟨rfl, rfl⟩ := run_pure.mp h
    obtain ⟨hd₂, hrepeats, L, hgains'⟩ := quantified_run hquantified hd₁
    exact ⟨hd₂, .repeated hq (hgains'.bodyFor hfor) hrepeats, L, hgains.trans hgains'⟩

theorem lexicalItems_run {items : List RhsItem} {parts : List (List SymbolId)}
    (h : (items.mapM (lexicalItem o lhs name)).run d = .ok (parts, d')) (hd : d.Orderly o) :
    d'.Orderly o ∧ List.Forall₂ (d'.Part o) items parts ∧ ∃ L, d.Gains L d' := by
  apply mapM_induction (P := fun items parts e => e.Orderly o ∧
    List.Forall₂ (e.Part o) items parts ∧ ∃ L, d.Gains L e) h
  · exact ⟨hd, .nil, [], .refl d _⟩
  rintro items parts item part e e' - ⟨he, hparts, L, hgains⟩ hrun
  obtain ⟨he', hpart, L', hgains'⟩ := lexicalItem_run hrun he
  refine ⟨he', ?_, L ++ L', hgains.trans hgains'⟩
  exact List.rel_append
    (hparts.imp fun _ _ => hgains'.part fun _ hfalse => hfalse.elim) (.cons hpart .nil)

/-- A rule that the author wrote is added as it is. -/
theorem addDeclared_run {level : Level} {rhs : List SymbolId} {semantics : Semantics}
    {rank : Int} {offset : Nat} {u : Unit}
    (h : (addDeclared level lhs rhs name semantics rank offset).run d = .ok (u, d'))
    (hd : d.Orderly o) (hopen : d.Open lhs) (hlt : lhs < d.symbols.size) :
    let r : Rule := ⟨lhs, rhs, name, semantics, rhs.map fun _ => true, rank⟩
    d.Grows (· = lhs) (level.pick [r] []) (level.pick [] [r]) d' ∧ d'.Orderly o := by
  obtain ⟨d, d, hget, h⟩ := run_bind.mp h
  obtain ⟨rfl, rfl⟩ := run_get.mp hget
  split at h
  · exact absurd h run_refuse
  · obtain ⟨_, d₁, hset, h⟩ := run_bind.mp h
    obtain rfl := run_set.mp hset
    have hnoted : d.Grows (· = lhs) [] []
        { d with declared := (level, lhs, rhs) :: d.declared } :=
      .of_eq rfl rfl rfl (fun _ h => h) rfl rfl
    have hd₁ := hd.of_grows_eq hnoted (fun s hs => hs ▸ hopen) rfl rfl
    obtain ⟨hgrows, hd'⟩ := addRule_grows h hd₁ hopen hlt
    exact ⟨hnoted.trans hgrows fun _ => Or.inl, hd'⟩

/-- An alternative adds its rule behind those of symbols of its own. -/
theorem lexicalAlternative_run {alt : Alternative} {u : Unit}
    (h : (lexicalAlternative o lhs name alt).run d = .ok (u, d')) (hd : d.Orderly o)
    (hlhs : o.IsName lhs) :
    d'.Orderly o ∧ ∃ L r, d.Grows (· = lhs) [] (L ++ [r]) d' ∧ r.lhs = lhs ∧
      d'.AlternativeRule o alt r ∧ ∀ r ∈ L, d.symbols.size ≤ r.lhs := by
  rw [lexicalAlternative] at h
  split at h
  · exact absurd h run_refuse
  obtain ⟨parts, d₁, hparts, h⟩ := run_bind.mp h
  obtain ⟨hd₁, hparts, L, hgains⟩ := lexicalItems_run hparts hd
  obtain ⟨hgrows, hd'⟩ :=
    addDeclared_run h hd₁ (hd₁.open_of_isName hlhs) (hd₁.lt_of_isName hlhs)
  have hname : ∀ s, s = lhs → o.IsName s := fun s hs => hs ▸ hlhs
  refine ⟨hd', L, ⟨lhs, parts.flatten, name, .apply none, parts.flatten.map fun _ => true, 0⟩,
    ?_, rfl, ?_, hgains.fresh⟩
  · exact (hgains.mono fun _ hfalse => hfalse.elim).trans hgrows fun _ => Or.inl
  · exact ⟨parts, hparts.imp fun _ _ => hgrows.part hname, rfl⟩

/-- The alternatives of one statement add their rules, in the order they were written. -/
theorem lexicalAlternatives_run {alternatives : List Alternative} {u : Unit}
    (h : (alternatives.forM (lexicalAlternative o lhs name)).run d = .ok (u, d'))
    (hd : d.Orderly o) (hlhs : o.IsName lhs) :
    d'.Orderly o ∧ ∃ L, d.Grows (· = lhs) [] L d' ∧
      List.Forall₂ (d'.AlternativeRule o) alternatives (L.filter (·.lhs == lhs)) := by
  have hname : ∀ s, s = lhs → o.IsName s := fun s hs => hs ▸ hlhs
  apply forM_induction (P := fun alternatives e => e.Orderly o ∧
    ∃ L, d.Grows (· = lhs) [] L e ∧
      List.Forall₂ (e.AlternativeRule o) alternatives (L.filter (·.lhs == lhs))) h
  · exact ⟨hd, [], .refl d _, .nil⟩
  rintro alternatives alt e e' - ⟨he, L, hgrows, hrules⟩ hrun
  obtain ⟨he', L', r, hgrows', hr, hrule, hfresh⟩ := lexicalAlternative_run hrun he hlhs
  refine ⟨he', L ++ (L' ++ [r]), hgrows.trans hgrows' fun _ => Or.inl, ?_⟩
  -- The rules of new symbols are none of the name.
  have hother : L'.filter (·.lhs == lhs) = [] := by
    rw [List.filter_eq_nil_iff]
    intro x hx hxlhs
    have hle := hfresh x hx
    rw [eq_of_beq hxlhs] at hle
    exact Nat.not_lt_of_le hle (he.lt_of_isName hlhs)
  have hown : (L ++ (L' ++ [r])).filter (·.lhs == lhs) = L.filter (·.lhs == lhs) ++ [r] := by
    simp [List.filter_append, hother, hr]
  rw [hown]
  exact List.rel_append (hrules.imp fun _ _ => hgrows'.alternativeRule hname) (.cons hrule .nil)

/-- A lexical statement adds the rules of its alternatives to those of its name. -/
theorem lexical_run {spelling : String} {alternatives : List Alternative} {offset : Nat}
    {u : Unit} (h : (lexical o spelling alternatives offset).run d = .ok (u, d'))
    (hd : d.Orderly o) :
    d'.Orderly o ∧ ∃ L, d.Grows o.IsName [] L d' ∧
      ∀ name id, o.lexicalId? name = some id → List.Forall₂ (d'.AlternativeRule o)
        ((Statement.lexical spelling alternatives offset).lexicalAlternatives name)
        (L.filter (·.lhs == id)) := by
  obtain ⟨defined, d₁, hdecode, h⟩ := run_bind.mp h
  obtain ⟨hdefined, rfl⟩ := run_lift.mp hdecode
  rw [Element.decodeNameAt_eq_ok] at hdefined
  simp only [Statement.lexicalAlternatives, hdefined]
  split at h
  next hnone =>
    obtain ⟨-, rfl⟩ := run_pure.mp h
    refine ⟨hd, [], .refl d _, fun name id hid => ?_⟩
    rw [if_neg fun heq => ?_]
    · exact .nil
    · rw [heq, hid] at hnone
      cases hnone
  next lhs hlhs =>
    have hname := Outline.isName_of_lexicalId? hlhs
    obtain ⟨hd', L, hgrows, hrules⟩ := lexicalAlternatives_run h hd hname
    refine ⟨hd', L, hgrows.mono fun s hs => Or.inl (hs ▸ hname), fun name id hid => ?_⟩
    split
    next heq =>
      obtain rfl : lhs = id := Option.some.inj (hlhs.symm.trans (heq ▸ hid))
      exact hrules
    next hne =>
      have hother : L.filter (·.lhs == id) = [] := by
        rw [List.filter_eq_nil_iff]
        intro r hr hrid
        have howned := hgrows.owned r (by simpa using hr)
        rw [eq_of_beq hrid] at howned
        rcases howned with rfl | hnew
        · exact hne (Outline.lexicalId?_inj hlhs hid)
        · exact Nat.not_lt_of_le hnew (hd.lt_of_isName (Outline.isName_of_lexicalId? hid))
      rw [hother]
      exact .nil

end Drafting

end Scannerless
