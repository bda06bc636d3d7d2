import Scannerless.Proofs.Grammar.Growth
import Scannerless.Proofs.Grammar.Statements

/-!
# The symbols of elements

An element among lexemes stands for a name with structural rules, for a name with lexical
rules, or for the lexeme that consists of a terminal. A step that looks an element up finds
its symbol or makes it, and changes nothing else.

## Main definitions

- `Draft.Stands`, `Draft.StandsFor` — the symbol of an element, and of a spelling.

## Main statements

- `Drafting.characterSymbols_run`, `Drafting.anonymousLexeme_run` — the symbols of a
  terminal.
- `Drafting.structuralSymbol_run`, `Drafting.discard_run` — the symbol of an element.
-/

namespace Scannerless

namespace Element

variable {raw : String} {offset : Nat}

theorem decodeAt_eq_ok {e : Element} : decodeAt raw offset = .ok e ↔ decode raw = .ok e := by
  rw [decodeAt]
  cases decode raw <;> simp [Except.mapError]

theorem decodeNameAt_eq_ok {name : String} :
    decodeNameAt raw offset = .ok name ↔ decode raw = .ok (.name name) := by
  rw [← @decodeAt_eq_ok raw offset, decodeNameAt]
  cases decodeAt raw offset with
  | error fault => simp
  | ok e => cases e <;> simp

end Element

namespace Outline

variable {o : Outline} {name : String} {s : SymbolId}

theorem structuralId?_eq_some (h : o.structuralId? name = some s) :
    ∃ offset, o.structural[s]? = some (name, offset) := by
  rw [structuralId?, List.findIdx?_eq_some_iff_getElem] at h
  obtain ⟨hlt, hname, -⟩ := h
  refine ⟨(o.structural[s]).2, ?_⟩
  rw [List.getElem?_eq_getElem hlt, ← eq_of_beq hname]

theorem structuralId?_inj {name' : String} (h : o.structuralId? name = some s)
    (h' : o.structuralId? name' = some s) : name = name' := by
  obtain ⟨offset, hentry⟩ := structuralId?_eq_some h
  obtain ⟨offset', hentry'⟩ := structuralId?_eq_some h'
  exact congrArg Prod.fst (Option.some.inj (hentry.symm.trans hentry'))

theorem lexicalId?_eq_some (h : o.lexicalId? name = some s) :
    ∃ i offset, o.lexical[i]? = some (name, offset) ∧ s = o.structural.length + i := by
  rw [lexicalId?, Option.map_eq_some_iff] at h
  obtain ⟨i, hi, rfl⟩ := h
  rw [List.findIdx?_eq_some_iff_getElem] at hi
  obtain ⟨hlt, hname, -⟩ := hi
  refine ⟨i, (o.lexical[i]).2, ?_, rfl⟩
  rw [List.getElem?_eq_getElem hlt, ← eq_of_beq hname]

theorem lexicalId?_inj {name' : String} (h : o.lexicalId? name = some s)
    (h' : o.lexicalId? name' = some s) : name = name' := by
  obtain ⟨i, offset, hi, rfl⟩ := lexicalId?_eq_some h
  obtain ⟨i', offset', hi', hs⟩ := lexicalId?_eq_some h'
  obtain rfl : i = i' := Nat.add_left_cancel hs
  exact congrArg Prod.fst (Option.some.inj (hi.symm.trans hi'))

theorem isName_of_structuralId? (h : o.structuralId? name = some s) : o.IsName s :=
  Nat.lt_of_lt_of_le (Plan.structuralId?_lt h) (Nat.le_add_right _ _)

theorem isName_of_lexicalId? (h : o.lexicalId? name = some s) : o.IsName s := by
  obtain ⟨i, offset, hi, rfl⟩ := lexicalId?_eq_some h
  exact Nat.add_lt_add_left (List.getElem?_eq_some_iff.mp hi).1 _

end Outline

namespace Draft

variable {o : Outline} {d d' : Draft} {T : SymbolId → Prop} {S L L' : List Rule} {s : SymbolId}

/-- A symbol stands for an element among lexemes. -/
inductive Stands (o : Outline) (d : Draft) : Element → SymbolId → Prop where
  | structural {name : String} {s : SymbolId} (h : o.structuralId? name = some s) :
      Stands o d (.name name) s
  | lexical {name : String} {s : SymbolId} (hname : o.structuralId? name = none)
      (h : o.lexicalId? name = some s) : Stands o d (.name name) s
  | terminal {t : Terminal} {s : SymbolId} (ht : t.Written)
      (h : d.anonymous.lookup t.spelling = some s) : Stands o d (.terminal t) s

/-- A symbol stands for the element with a given spelling. -/
def StandsFor (o : Outline) (d : Draft) (raw : String) (s : SymbolId) : Prop :=
  ∃ e, Element.decode raw = .ok e ∧ d.Stands o e s

/-- A terminal has the lexeme of its spelling. -/
theorem StandsFor.lookup {raw : String} {t : Terminal} (hs : d.StandsFor o raw s)
    (hraw : Element.decode raw = .ok (.terminal t)) : d.anonymous.lookup t.spelling = some s := by
  obtain ⟨e, he, hstands⟩ := hs
  obtain rfl := Except.ok.inj (he.symm.trans hraw)
  cases hstands with
  | terminal _ hlookup => exact hlookup

theorem Grows.stands (h : d.Grows T S L d') {e : Element} (hs : d.Stands o e s) :
    d'.Stands o e s := by
  cases hs with
  | structural hid => exact .structural hid
  | lexical hname hid => exact .lexical hname hid
  | terminal ht hlookup => exact .terminal ht (h.anonymous _ _ hlookup)

theorem Grows.standsFor (h : d.Grows T S L d') {raw : String} (hs : d.StandsFor o raw s) :
    d'.StandsFor o raw s := by
  obtain ⟨e, he, hs⟩ := hs
  exact ⟨e, he, h.stands hs⟩

theorem Gains.trans {d'' : Draft} (h : d.Gains L d') (h' : d'.Gains L' d'') :
    d.Gains (L ++ L') d'' :=
  Grows.trans h h' fun _ hfalse => hfalse.elim

/-- A lexeme that stands for a terminal consists of it. -/
theorem Orderly.isTerminal (hd : d.Orderly o) {t : Terminal} (ht : t.Written)
    (hs : d.anonymous.lookup t.spelling = some s) : ¬o.IsName s ∧ d.IsTerminal t s := by
  obtain ⟨t', ht', hspelling, hname, hterminal⟩ := hd.anonymous _ s hs
  obtain rfl := ht.eq_of_spelling ht' hspelling
  exact ⟨hname, hterminal⟩

end Draft

namespace Drafting

variable {o : Outline} {d d' : Draft} {T : SymbolId → Prop} {s : SymbolId}

/-! ### Symbols and rules -/

theorem addSymbol_run {name : String} {kind : SymbolKind} {offset : Nat}
    (h : (addSymbol name kind offset).run d = .ok (s, d')) :
    s = d.symbols.size ∧ d' =
      { d with symbols := d.symbols.push ⟨name, kind⟩, offsets := d.offsets.push offset } := by
  obtain ⟨rfl, rfl⟩ := Prod.mk.inj (Except.ok.inj h)
  exact ⟨rfl, rfl⟩

theorem symbol_push {d : Draft} {x : Symbol} {offsets : Array Nat} {y : Symbol}
    (h : d.symbols[s]? = some y) :
    ({ d with symbols := d.symbols.push x, offsets := offsets } : Draft).symbols[s]? = some y := by
  have hne : s ≠ d.symbols.size := Nat.ne_of_lt (Draft.lt_of_symbol h)
  rw [Array.getElem?_push, if_neg hne, h]

/-- A new symbol gets no rules. -/
theorem gains_push (d : Draft) (x : Symbol) (offsets : Array Nat) :
    d.Gains [] { d with symbols := d.symbols.push x, offsets := offsets } where
  size_le := by simp
  symbol s y h := ⟨y.kind, symbol_push h, Or.inl rfl⟩
  characters _ _ h := h
  anonymous _ _ h := h
  discards _ h := h
  rules level := by cases level <;> simp [Draft.rules, Level.pick]
  owned := by simp
  bounded := by simp

theorem addSymbol_grows {name : String} {kind : SymbolKind} {offset : Nat}
    (h : (addSymbol name kind offset).run d = .ok (s, d')) (hd : d.Orderly o) :
    s = d.symbols.size ∧ d'.symbols.size = d.symbols.size + 1 ∧
      d'.symbols[s]? = some ⟨name, kind⟩ ∧ d.Gains [] d' ∧ d'.Orderly o := by
  obtain ⟨rfl, rfl⟩ := addSymbol_run h
  have hgains := gains_push d ⟨name, kind⟩ (d.offsets.push offset)
  refine ⟨rfl, by simp, by simp, hgains, ?_⟩
  exact hd.of_grows_eq hgains (fun _ hfalse => hfalse.elim) rfl rfl

/-- Structural rules of symbols that may get rules. -/
theorem grows_structural {rs : List Rule} (hT : ∀ r ∈ rs, T r.lhs)
    (hlt : ∀ r ∈ rs, r.lhs < d.symbols.size) :
    d.Grows T rs [] { d with structural := d.structural ++ rs.toArray } where
  size_le := Nat.le_refl _
  symbol _ x h := ⟨x.kind, h, Or.inl rfl⟩
  characters _ _ h := h
  anonymous _ _ h := h
  discards _ h := h
  rules level := by cases level <;> simp [Draft.rules, Level.pick]
  owned r hr := Or.inl (hT r (by simpa using hr))
  bounded r hr := hlt r (by simpa using hr)

/-- Lexical rules of symbols that may get rules. -/
theorem grows_lexical {rs : List Rule} (hT : ∀ r ∈ rs, T r.lhs)
    (hlt : ∀ r ∈ rs, r.lhs < d.symbols.size) :
    d.Grows T [] rs { d with lexical := d.lexical ++ rs.toArray } where
  size_le := Nat.le_refl _
  symbol _ x h := ⟨x.kind, h, Or.inl rfl⟩
  characters _ _ h := h
  anonymous _ _ h := h
  discards _ h := h
  rules level := by cases level <;> simp [Draft.rules, Level.pick]
  owned r hr := Or.inl (hT r (by simpa using hr))
  bounded r hr := hlt r (by simpa using hr)

theorem addRule_run {level : Level} {r : Rule} {u : Unit}
    (h : (addRule level r).run d = .ok (u, d')) :
    d' = level.pick { d with structural := d.structural ++ [r].toArray }
      { d with lexical := d.lexical ++ [r].toArray } := by
  obtain rfl := run_modify.mp h
  cases level <;> simp [Level.pick]

/-- Rules are added one after the other. -/
theorem addRules_run {level : Level} {rs : List Rule} {u : Unit}
    (h : (rs.forM (addRule level)).run d = .ok (u, d')) :
    d' = level.pick { d with structural := d.structural ++ rs.toArray }
      { d with lexical := d.lexical ++ rs.toArray } := by
  apply forM_induction (P := fun rs e =>
    e = level.pick { d with structural := d.structural ++ rs.toArray }
      { d with lexical := d.lexical ++ rs.toArray }) h
  · cases level <;> simp [Level.pick]
  rintro rs r e e' - rfl hrun
  rw [addRule_run hrun]
  cases level <;> simp [Level.pick]

/-- Adding a rule adds this rule only. -/
theorem addRule_grows {level : Level} {r : Rule} {u : Unit}
    (h : (addRule level r).run d = .ok (u, d')) (hd : d.Orderly o) (hopen : d.Open r.lhs)
    (hlt : r.lhs < d.symbols.size) :
    d.Grows (· = r.lhs) (level.pick [r] []) (level.pick [] [r]) d' ∧ d'.Orderly o := by
  have hT : ∀ s, s = r.lhs → d.Open s := fun s hs => hs ▸ hopen
  obtain rfl := addRule_run h
  cases level with
  | structural =>
    have hgrows : d.Grows (· = r.lhs) [r] []
        { d with structural := d.structural ++ [r].toArray } :=
      grows_structural (by simp) (by simpa using hlt)
    exact ⟨hgrows, hd.of_grows_eq hgrows hT rfl rfl⟩
  | lexical =>
    have hgrows : d.Grows (· = r.lhs) [] [r]
        { d with lexical := d.lexical ++ [r].toArray } :=
      grows_lexical (by simp) (by simpa using hlt)
    exact ⟨hgrows, hd.of_grows_eq hgrows hT rfl rfl⟩

/-! ### Characters and terminals -/

/-- A new spelling takes nothing from those that are there. -/
theorem lookup_cons_of_eq_none {entries : List (String × SymbolId)} {key new : String}
    {id : SymbolId} (hnone : entries.lookup new = none) (h : entries.lookup key = some s) :
    ((new, id) :: entries).lookup key = some s := by
  rw [List.lookup_cons]
  split
  next hkey =>
    rw [eq_of_beq hkey, hnone] at h
    cases h
  next => exact h

/-- A spelling has the new symbol if it is the new one, and its old symbol otherwise. -/
theorem lookup_cons_cases {entries : List (String × SymbolId)} {key new : String}
    {id : SymbolId} (h : ((new, id) :: entries).lookup key = some s) :
    key = new ∧ s = id ∨ entries.lookup key = some s := by
  rw [List.lookup_cons] at h
  split at h
  next hkey => exact Or.inl ⟨eq_of_beq hkey, (Option.some.inj h).symm⟩
  next => exact Or.inr h

/-- The symbol of a character is found by its spelling, or made. -/
theorem characterSymbol_run {cls : CharClass} {offset : Nat}
    (h : (characterSymbol cls offset).run d = .ok (s, d')) (hd : d.SpellsCharacters)
    (hcls : cls.Written) :
    d'.SpellsCharacters ∧ d.Gains [] d' ∧ d'.IsCharacter cls s ∧ d'.anonymous = d.anonymous := by
  obtain ⟨d, d, hget, h⟩ := run_bind.mp h
  obtain ⟨rfl, rfl⟩ := run_get.mp hget
  split at h
  next id hfound =>
    obtain ⟨rfl, rfl⟩ := run_pure.mp h
    obtain ⟨cls', hcls', hspelling, hchar⟩ := hd _ id hfound
    obtain rfl := hcls.eq_of_spelling hcls' hspelling
    exact ⟨hd, .refl d _, hchar, rfl⟩
  next hnone =>
    obtain ⟨id, d₁, hadd, h⟩ := run_bind.mp h
    obtain ⟨rfl, rfl⟩ := addSymbol_run hadd
    obtain ⟨_, d₂, hmodify, h⟩ := run_bind.mp h
    obtain rfl := run_modify.mp hmodify
    obtain ⟨rfl, rfl⟩ := run_pure.mp h
    have hpush := gains_push d ⟨cls.spelling, .char cls⟩ (d.offsets.push offset)
    refine ⟨fun key id hid => ?_, ?_, ?_, rfl⟩
    · rcases lookup_cons_cases hid with ⟨rfl, rfl⟩ | hid
      · exact ⟨cls, hcls, rfl, by simp [Draft.IsCharacter]⟩
      · obtain ⟨cls', hcls', hspelling, hchar⟩ := hd key id hid
        exact ⟨cls', hcls', hspelling, hpush.isCharacter hchar⟩
    · exact { hpush with characters := fun _ _ => lookup_cons_of_eq_none hnone }
    · simp [Draft.IsCharacter]

theorem characterSymbols_run {t : Terminal} {offset : Nat} {ss : List SymbolId}
    (h : (characterSymbols t offset).run d = .ok (ss, d')) (hd : d.SpellsCharacters)
    (ht : t.Written) :
    d'.SpellsCharacters ∧ d.Gains [] d' ∧ List.Forall₂ d'.IsCharacter t.classes ss ∧
      d'.anonymous = d.anonymous := by
  refine mapM_induction (P := fun classes ss e => e.SpellsCharacters ∧ d.Gains [] e ∧
    List.Forall₂ e.IsCharacter classes ss ∧ e.anonymous = d.anonymous) h
    ⟨hd, .refl d _, .nil, rfl⟩ ?_
  rintro classes ss cls s e e' hcls ⟨he, hgains, hss, hanonymous⟩ hrun
  obtain ⟨he', hgains', hs, hanonymous'⟩ := characterSymbol_run hrun he (ht.classes cls hcls)
  refine ⟨he', hgains.trans hgains', ?_, hanonymous'.trans hanonymous⟩
  exact List.rel_append (hss.imp fun _ _ => hgains'.isCharacter) (.cons hs .nil)

/-- A lexeme without rules that gets the rule of a terminal consists of the terminal. -/
theorem addTerminalRule_run {t : Terminal} {rhs : List SymbolId} {u : Unit}
    (h : (addRule .lexical (Draft.terminalRule t s rhs)).run d = .ok (u, d'))
    (hsymbol : d.symbols[s]? = some ⟨t.spelling, .lexeme⟩)
    (hrhs : List.Forall₂ d.IsCharacter t.classes rhs) (hnone : d.rulesOf .lexical s = []) :
    d.Grows (· = s) [] [Draft.terminalRule t s rhs] d' ∧ d'.IsTerminal t s ∧
      d'.characters = d.characters ∧ d'.anonymous = d.anonymous := by
  obtain rfl := addRule_run h
  have hgrows : d.Grows (· = s) [] [Draft.terminalRule t s rhs]
      { d with lexical := d.lexical ++ [Draft.terminalRule t s rhs].toArray } := by
    refine grows_lexical ?_ ?_
    · simp [Draft.terminalRule]
    · simpa [Draft.terminalRule] using Draft.lt_of_symbol hsymbol
  refine ⟨hgrows, ⟨hsymbol, rhs, hrhs.imp fun _ _ => hgrows.isCharacter, ?_⟩, rfl, rfl⟩
  have hrules := hgrows.rulesOf_append .lexical s
  rw [hnone] at hrules
  simpa [Level.pick, Draft.terminalRule] using hrules

/-- The lexeme of a terminal is found by its spelling, or made with its rule. -/
theorem anonymousLexeme_run {t : Terminal} {offset : Nat}
    (h : (anonymousLexeme t offset).run d = .ok (s, d')) (hd : d.Orderly o) (ht : t.Written) :
    d'.Orderly o ∧ d'.anonymous.lookup t.spelling = some s ∧ ∃ L, d.Gains L d' := by
  obtain ⟨d, d, hget, h⟩ := run_bind.mp h
  obtain ⟨rfl, rfl⟩ := run_get.mp hget
  split at h
  next id hfound =>
    obtain ⟨rfl, rfl⟩ := run_pure.mp h
    exact ⟨hd, hfound, [], .refl d _⟩
  next hnone =>
    obtain ⟨id, d₁, hadd, h⟩ := run_bind.mp h
    obtain ⟨rfl, rfl⟩ := addSymbol_run hadd
    obtain ⟨_, d₂, hmodify, h⟩ := run_bind.mp h
    obtain ⟨rhs, d₃, hchars, h⟩ := run_bind.mp h
    obtain ⟨_, d₄, hrule, h⟩ := run_bind.mp h
    obtain ⟨rfl, rfl⟩ := run_pure.mp h
    -- The lexeme is noted before its characters are looked up, and they leave it alone.
    have hnoted : d.Gains [] d₂ ∧ d₂.symbols[d.symbols.size]? = some ⟨t.spelling, .lexeme⟩ ∧
        d₂.characters = d.characters ∧
        d₂.anonymous = (t.spelling, d.symbols.size) :: d.anonymous := by
      obtain rfl := run_modify.mp hmodify
      have hpush := gains_push d ⟨t.spelling, .lexeme⟩ (d.offsets.push offset)
      refine ⟨?_, by simp, rfl, rfl⟩
      exact { hpush with anonymous := fun _ _ => lookup_cons_of_eq_none hnone }
    obtain ⟨hgains₂, hsymbol, hcharacters, hanonymous⟩ := hnoted
    obtain ⟨hspells, hgains₃, hrhs, hanonymous'⟩ :=
      characterSymbols_run hchars (hd.characters.of_grows hgains₂ hcharacters) ht
    have hgains := hgains₂.trans hgains₃
    have hempty : d₃.rulesOf .lexical d.symbols.size = [] := by
      rw [hgains.rulesOf_append, Draft.rulesOf_eq_nil hd .lexical (Nat.le_refl _)]
      rfl
    obtain ⟨hadded, hterminal, hcharacters', hanonymous''⟩ :=
      addTerminalRule_run hrule (hgains₃.symbol_eq hsymbol nofun) hrhs hempty
    have hall : d.Gains [Draft.terminalRule t d.symbols.size rhs] d₄ :=
      Draft.Grows.trans hgains hadded fun s hs => Or.inr (Nat.le_of_eq hs.symm)
    have hentries : d₄.anonymous = (t.spelling, d.symbols.size) :: d.anonymous :=
      hanonymous''.trans (hanonymous'.trans hanonymous)
    refine ⟨hd.of_grows hall (fun _ hfalse => hfalse.elim)
      (hspells.of_grows hadded hcharacters') fun key id hid => ?_, ?_, _, hall⟩
    · rw [hentries] at hid
      rcases lookup_cons_cases hid with ⟨rfl, rfl⟩ | hid
      · exact Or.inr ⟨t, ht, rfl, fun hname => Nat.lt_irrefl _ (hd.lt_of_isName hname), hterminal⟩
      · exact Or.inl hid
    · rw [hentries, List.lookup_cons_self]

/-! ### Elements among lexemes -/

/-- A symbol with lexical rules may become a lexeme. -/
theorem gains_lexeme {name : String} (hd : d.Orderly o) (hs : o.lexicalId? name = some s) :
    d.Gains [] { d with symbols := d.symbols.modify s fun x => { x with kind := .lexeme } } := by
  obtain ⟨i, offset, hi, rfl⟩ := Outline.lexicalId?_eq_some hs
  obtain ⟨k, hk, hkind⟩ := hd.lexicalName i _ hi
  refine ⟨by simp, fun s x hx => ?_, fun _ _ h => h, fun _ _ h => h, fun _ h => h, fun level => ?_,
    by simp, by simp⟩
  · rw [Array.getElem?_modify, hx]
    split
    next heq =>
      rw [← heq, hk] at hx
      obtain rfl := Option.some.inj hx
      refine ⟨.lexeme, rfl, ?_⟩
      rcases hkind with rfl | rfl
      · exact Or.inr ⟨rfl, rfl⟩
      · exact Or.inl rfl
    next => exact ⟨x.kind, rfl, Or.inl rfl⟩
  · cases level <;> simp [Draft.rules, Level.pick]

theorem namedLexeme_run {name : String} {offset : Nat}
    (h : (namedLexeme o name offset).run d = .ok (s, d')) (hd : d.Orderly o) :
    o.lexicalId? name = some s ∧ d.Gains [] d' ∧ d'.Orderly o := by
  rw [namedLexeme] at h
  split at h
  next id hid =>
    obtain ⟨_, d₁, hmodify, h⟩ := run_bind.mp h
    obtain rfl := run_modify.mp hmodify
    obtain ⟨rfl, rfl⟩ := run_pure.mp h
    have hgains := gains_lexeme hd hid
    exact ⟨hid, hgains, hd.of_grows_eq hgains (fun _ hfalse => hfalse.elim) rfl rfl⟩
  next => exact absurd h run_refuse

theorem useLexeme_run {id : SymbolId} (h : (useLexeme id).run d = .ok (s, d'))
    (hd : d.Orderly o) : s = id ∧ d.Gains [] d' ∧ d'.Orderly o := by
  obtain ⟨_, d₁, hmodify, h⟩ := run_bind.mp h
  obtain rfl := run_modify.mp hmodify
  obtain ⟨rfl, rfl⟩ := run_pure.mp h
  have hgains : d.Gains [] { d with lexemes := insertLast d.lexemes id } :=
    .of_eq rfl rfl rfl (fun _ h => h) rfl rfl
  exact ⟨rfl, hgains, hd.of_grows_eq hgains (fun _ hfalse => hfalse.elim) rfl rfl⟩

/-- An element of a structural rule becomes the symbol that stands for it. -/
theorem structuralSymbol_run {raw : String} {offset : Nat}
    (h : (structuralSymbol o raw offset).run d = .ok (s, d')) (hd : d.Orderly o) :
    d'.Orderly o ∧ d'.StandsFor o raw s ∧ ∃ L, d.Gains L d' := by
  obtain ⟨e, d₁, he, h⟩ := run_bind.mp h
  obtain ⟨hdecode, rfl⟩ := run_lift.mp he
  replace he := Element.decodeAt_eq_ok.mp hdecode
  cases e with
  | name name =>
    simp only at h
    split at h
    next id hid =>
      obtain ⟨rfl, rfl⟩ := run_pure.mp h
      exact ⟨hd, ⟨_, he, .structural hid⟩, [], .refl d _⟩
    next hnone =>
      obtain ⟨id, d₂, hnamed, h⟩ := run_bind.mp h
      obtain ⟨hid, hgains, hd₂⟩ := namedLexeme_run hnamed hd
      obtain ⟨rfl, hgains', hd'⟩ := useLexeme_run h hd₂
      exact ⟨hd', ⟨_, he, .lexical hnone hid⟩, [], hgains.trans hgains'⟩
  | terminal t =>
    obtain ⟨id, d₂, hanonymous, h⟩ := run_bind.mp h
    obtain ⟨hd₂, hlookup, L, hgains⟩ := anonymousLexeme_run hanonymous hd ⟨raw, he⟩
    obtain ⟨rfl, hgains', hd'⟩ := useLexeme_run h hd₂
    have hstands : d₂.StandsFor o raw s := ⟨_, he, .terminal ⟨raw, he⟩ hlookup⟩
    exact ⟨hd', hgains'.standsFor hstands, _, hgains.trans hgains'⟩

theorem structuralSymbols_run {items : List RhsItem} {ss : List SymbolId}
    (h : (structuralSymbols o items).run d = .ok (ss, d')) (hd : d.Orderly o) :
    d'.Orderly o ∧ List.Forall₂ (fun item s => d'.StandsFor o item.element s) items ss ∧
      ∃ L, d.Gains L d' := by
  rw [structuralSymbols] at h
  apply mapM_induction (P := fun items ss e => e.Orderly o ∧
    List.Forall₂ (fun item s => e.StandsFor o item.element s) items ss ∧ ∃ L, d.Gains L e) h
  · exact ⟨hd, .nil, [], .refl d _⟩
  rintro items ss item s e e' - ⟨he, hss, L, hgains⟩ hrun
  obtain ⟨he', hs, L', hgains'⟩ := structuralSymbol_run hrun he
  refine ⟨he', ?_, L ++ L', hgains.trans hgains'⟩
  exact List.rel_append (hss.imp fun _ _ => hgains'.standsFor) (.cons hs .nil)

/-- An element that is discarded stands for a symbol with lexical rules. -/
theorem discardSymbol_run {raw : String} {offset : Nat}
    (h : (discardSymbol o raw offset).run d = .ok (s, d')) (hd : d.Orderly o) :
    d'.Orderly o ∧ d'.StandsFor o raw s ∧ ∃ L, d.Gains L d' := by
  obtain ⟨e, d₁, he, h⟩ := run_bind.mp h
  obtain ⟨hdecode, rfl⟩ := run_lift.mp he
  replace he := Element.decodeAt_eq_ok.mp hdecode
  cases e with
  | name name =>
    simp only at h
    split at h
    · exact absurd h run_refuse
    next hname =>
      obtain ⟨hid, hgains, hd'⟩ := namedLexeme_run h hd
      have hnone : o.structuralId? name = none := by
        rw [Outline.structuralId?, List.findIdx?_eq_none_iff]
        rw [Outline.isStructural, Bool.not_eq_true, List.any_eq_false] at hname
        exact fun x hx => Bool.eq_false_iff.mpr (hname x hx)
      exact ⟨hd', ⟨_, he, .lexical hnone hid⟩, [], hgains⟩
  | terminal t =>
    obtain ⟨hd', hlookup, hgains⟩ := anonymousLexeme_run h hd ⟨raw, he⟩
    exact ⟨hd', ⟨_, he, .terminal ⟨raw, he⟩ hlookup⟩, hgains⟩

theorem discard_run {raw : String} {offset : Nat} {u : Unit}
    (h : (discard o raw offset).run d = .ok (u, d')) (hd : d.Orderly o) :
    d'.Orderly o ∧ (∃ s ∈ d'.discards, d'.StandsFor o raw s) ∧ ∃ L, d.Gains L d' := by
  rw [discard] at h
  obtain ⟨s, d₁, hsymbol, h⟩ := run_bind.mp h
  obtain rfl := run_modify.mp h
  obtain ⟨hd₁, hstands, L, hgains⟩ := discardSymbol_run hsymbol hd
  have hnoted : d₁.Gains [] { d₁ with discards := insertLast d₁.discards s } :=
    .of_eq rfl rfl rfl (fun _ hs => mem_insertLast.mpr (Or.inl hs)) rfl rfl
  exact ⟨hd₁.of_grows_eq hnoted (fun _ hfalse => hfalse.elim) rfl rfl,
    ⟨s, mem_insertLast.mpr (Or.inr rfl), hnoted.standsFor hstands⟩, _, hgains.trans hnoted⟩

end Drafting

end Scannerless
