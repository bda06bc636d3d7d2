import Scannerless.Proofs.Grammar.Lexemes

/-!
# Tokens and where they are written

The tokens of a draft are the lexemes of its structural rules and what is discarded. Each of
them is the symbol of an element that is written among lexemes: of a name with lexical rules, or
of a terminal. Every step that reads statements adds the tokens of the elements that it reads
and no others, so that the tokens of a list of statements are those of its elements.

## Main definitions

- `Draft.Token` — a symbol that is a token of structural rules or is discarded.
- `Draft.Enlists` — what a step that reads elements does to the tokens.

## Main statements

- `Drafting.structuralSymbol_enlists`, `Drafting.discard_enlists` — single elements.
- `Drafting.statements_enlists` — the tokens of statements are those of their elements.
-/

namespace Scannerless

namespace Draft

variable {o : Outline} {d d' d'' : Draft} {raws raws' : Set String} {s : SymbolId}

/-- A symbol is a token of structural rules or is discarded. -/
def Token (d : Draft) (s : SymbolId) : Prop :=
  s ∈ d.lexemes ∨ s ∈ d.discards

/-- A symbol belongs to an element of a set that is a name with lexical rules, or to some
    terminal. -/
def Spells (o : Outline) (d : Draft) (raws : Set String) (s : SymbolId) : Prop :=
  (∃ raw ∈ raws, ∃ name, Element.decode raw = .ok (.name name) ∧ o.lexicalId? name = some s) ∨
    ∃ key, d.anonymous.lookup key = some s

/-- The tokens of elements are added to those of a draft: the names with lexical rules among
    them, and nothing but these and terminals. Only tokens and terminals become lexemes. -/
structure Enlists (o : Outline) (d : Draft) (raws : Set String) (d' : Draft) : Prop where
  anonymous : ∀ key s, d.anonymous.lookup key = some s → d'.anonymous.lookup key = some s
  token : ∀ s, d.Token s → d'.Token s
  name : ∀ raw ∈ raws, ∀ name s, Element.decode raw = .ok (.name name) →
    o.structuralId? name = none → o.lexicalId? name = some s → d'.Token s
  spells : ∀ s, d'.Token s → d.Token s ∨ d'.Spells o raws s
  lexeme : ∀ s, d'.kind? s = some .lexeme →
    d.kind? s = some .lexeme ∨ d'.Token s ∨ ∃ key, d'.anonymous.lookup key = some s

theorem Spells.mono (h : d.Spells o raws s) (hraws : raws ⊆ raws')
    (hanonymous : ∀ key s, d.anonymous.lookup key = some s → d'.anonymous.lookup key = some s) :
    d'.Spells o raws' s := by
  rcases h with ⟨raw, hraw, hname⟩ | ⟨key, hkey⟩
  · exact Or.inl ⟨raw, hraws hraw, hname⟩
  · exact Or.inr ⟨key, hanonymous key s hkey⟩

/-- Steps that leave the tokens and terminals alone and make no lexemes. -/
theorem Enlists.of_eq (hanonymous : d'.anonymous = d.anonymous) (hlexemes : d'.lexemes = d.lexemes)
    (hdiscards : d'.discards = d.discards)
    (hkind : ∀ s, d'.kind? s = some .lexeme → d.kind? s = some .lexeme) : d.Enlists o ∅ d' where
  anonymous key s h := by rwa [hanonymous]
  token s h := by rwa [Token, hlexemes, hdiscards]
  name raw hraw := hraw.elim
  spells s h := by
    rw [Token, hlexemes, hdiscards] at h
    exact Or.inl h
  lexeme s h := Or.inl (hkind s h)

theorem Enlists.refl (d : Draft) : d.Enlists o ∅ d :=
  .of_eq rfl rfl rfl fun _ h => h

theorem Enlists.trans (h : d.Enlists o raws d') (h' : d'.Enlists o raws' d'') :
    d.Enlists o (raws ∪ raws') d'' where
  anonymous key s hs := h'.anonymous key s (h.anonymous key s hs)
  token s hs := h'.token s (h.token s hs)
  name raw hraw name s hdecode hnone hs := by
    rcases hraw with hraw | hraw
    · exact h'.token s (h.name raw hraw name s hdecode hnone hs)
    · exact h'.name raw hraw name s hdecode hnone hs
  spells s hs := by
    rcases h'.spells s hs with hs | hs
    · exact (h.spells s hs).imp_right fun hs => hs.mono Set.subset_union_left h'.anonymous
    · exact Or.inr (hs.mono Set.subset_union_right fun _ _ h => h)
  lexeme s hs := by
    rcases h'.lexeme s hs with hs | hs
    · rcases h.lexeme s hs with hs | hs | ⟨key, hkey⟩
      · exact Or.inl hs
      · exact Or.inr (Or.inl (h'.token s hs))
      · exact Or.inr (Or.inr ⟨key, h'.anonymous key s hkey⟩)
    · exact Or.inr hs

/-- The symbol of an element becomes a token. -/
theorem Enlists.of_insert {raw : String} (hanonymous : d'.anonymous = d.anonymous)
    (htoken : ∀ x, d'.Token x ↔ d.Token x ∨ x = s)
    (hkind : ∀ x, d'.kind? x = some .lexeme → d.kind? x = some .lexeme ∨ x = s)
    (hspells : d.Spells o {raw} s)
    (hname : ∀ name x, Element.decode raw = .ok (.name name) → o.structuralId? name = none →
      o.lexicalId? name = some x → x = s) : d.Enlists o {raw} d' where
  anonymous key x h := by rwa [hanonymous]
  token x h := (htoken x).mpr (Or.inl h)
  name raw' hraw name x hdecode hnone hx := by
    obtain rfl : raw' = raw := hraw
    exact (htoken x).mpr (Or.inr (hname name x hdecode hnone hx))
  spells x h := by
    refine ((htoken x).mp h).imp_right ?_
    rintro rfl
    exact hspells.mono (fun _ h => h) fun key s h => by rwa [hanonymous]
  lexeme x h := (hkind x h).imp_right fun hx => Or.inl ((htoken x).mpr (Or.inr hx))

/-- The tokens of a draft with one more lexeme. -/
theorem token_insert_lexeme (d : Draft) (s x : SymbolId) :
    Token { d with lexemes := insertLast d.lexemes s } x ↔ d.Token x ∨ x = s := by
  simp only [Token, mem_insertLast]
  tauto

/-- The names of an outline are no lexemes before they are used. -/
theorem kind?_ofOutline_ne (o : Outline) (s : SymbolId) :
    (ofOutline o).kind? s ≠ some .lexeme := by
  intro h
  rw [kind?, Option.map_eq_some_iff] at h
  obtain ⟨x, hx, hkind⟩ := h
  have hmem : x ∈ (ofOutline o).symbols := Array.mem_of_getElem? hx
  simp only [ofOutline, List.mem_toArray, List.mem_append, List.mem_map] at hmem
  rcases hmem with ⟨e, -, rfl⟩ | ⟨e, -, rfl⟩ <;> cases hkind

theorem token_insert_discard (d : Draft) (s x : SymbolId) :
    Token { d with discards := insertLast d.discards s } x ↔ d.Token x ∨ x = s := by
  simp only [Token, mem_insertLast, or_assoc]

end Draft

namespace Drafting

variable {o : Outline} {α β : Type} {raws raws' : Set String}

/-- A step adds the tokens of the elements of a set. -/
def Enlists (o : Outline) (m : Drafting α) (raws : Set String) : Prop :=
  ∀ d a d', m.run d = .ok (a, d') → d.Enlists o raws d'

/-! ### Steps one after the other -/

theorem Enlists.bind {m : Drafting α} {f : α → Drafting β} (hm : m.Enlists o raws)
    (hf : ∀ a, (f a).Enlists o raws') : (m >>= f).Enlists o (raws ∪ raws') := by
  intro d b d' hrun
  obtain ⟨a, e, hrun, hrun'⟩ := run_bind.mp hrun
  exact (hm d a e hrun).trans (hf a e b d' hrun')

theorem Enlists.bind_right {m : Drafting α} {f : α → Drafting β} (hm : m.Enlists o ∅)
    (hf : ∀ a, (f a).Enlists o raws) : (m >>= f).Enlists o raws := by
  have h := hm.bind hf
  rwa [Set.empty_union] at h

theorem Enlists.bind_left {m : Drafting α} {f : α → Drafting β} (hm : m.Enlists o raws)
    (hf : ∀ a, (f a).Enlists o ∅) : (m >>= f).Enlists o raws := by
  have h := hm.bind hf
  rwa [Set.union_empty] at h

theorem pure_enlists (a : α) : (pure a : Drafting α).Enlists o ∅ := by
  intro d a' d' hrun
  obtain ⟨-, rfl⟩ := run_pure.mp hrun
  exact .refl d

theorem refuse_enlists (cause : Cause) (offset : Nat) :
    (refuse cause offset : Drafting α).Enlists o raws :=
  fun _ _ _ hrun => absurd hrun run_refuse

theorem lift_enlists (x : Except Fault α) : (liftM x : Drafting α).Enlists o ∅ := by
  intro d a d' hrun
  obtain ⟨-, rfl⟩ := run_lift.mp hrun
  exact .refl d

theorem lift_bind_enlists {x : Except Fault α} {f : α → Drafting β}
    (hf : ∀ a, x = .ok a → (f a).Enlists o raws) : (liftM x >>= f).Enlists o raws := by
  intro d b d' hrun
  obtain ⟨a, e, hlift, hrun'⟩ := run_bind.mp hrun
  obtain ⟨hx, rfl⟩ := run_lift.mp hlift
  exact hf a hx d b d' hrun'

theorem get_bind_enlists {f : Draft → Drafting β} (hf : ∀ d, (f d).Enlists o raws) :
    (get >>= f).Enlists o raws :=
  fun d b d' hrun => hf d d b d' hrun

theorem modify_enlists {f : Draft → Draft} (hanonymous : ∀ d, (f d).anonymous = d.anonymous)
    (hlexemes : ∀ d, (f d).lexemes = d.lexemes) (hdiscards : ∀ d, (f d).discards = d.discards)
    (hsymbols : ∀ d, (f d).symbols = d.symbols) : (modify f : Drafting PUnit).Enlists o ∅ := by
  intro d a d' hrun
  obtain rfl := run_modify.mp hrun
  refine .of_eq (hanonymous d) (hlexemes d) (hdiscards d) fun s hs => ?_
  rwa [Draft.kind?, hsymbols] at hs

/-- A loop adds the tokens that its passes add. -/
theorem forM_enlists {xs : List β} {f : β → Drafting Unit} {raws : β → Set String}
    (hf : ∀ x ∈ xs, (f x).Enlists o (raws x)) : (xs.forM f).Enlists o (⋃ x ∈ xs, raws x) := by
  induction xs with
  | nil => simpa using pure_enlists (o := o) ()
  | cons y ys ih =>
    rw [List.forall_mem_cons] at hf
    have hboth : (f y >>= fun _ => ys.forM f).Enlists o (raws y ∪ ⋃ x ∈ ys, raws x) :=
      hf.1.bind fun _ => ih hf.2
    simpa using hboth

theorem forM_enlists_empty {xs : List β} {f : β → Drafting Unit}
    (hf : ∀ x ∈ xs, (f x).Enlists o ∅) : (xs.forM f).Enlists o ∅ := by
  simpa using forM_enlists hf

theorem mapM_enlists {xs : List β} {f : β → Drafting α} {raws : β → Set String}
    (hf : ∀ x ∈ xs, (f x).Enlists o (raws x)) : (xs.mapM f).Enlists o (⋃ x ∈ xs, raws x) := by
  induction xs with
  | nil => simpa using pure_enlists (o := o) ([] : List α)
  | cons y ys ih =>
    rw [List.forall_mem_cons] at hf
    rw [List.mapM_cons]
    have hboth : (f y >>= fun a => ys.mapM f >>= fun as => pure (a :: as)).Enlists o
        (raws y ∪ ⋃ x ∈ ys, raws x) :=
      hf.1.bind fun a => (ih hf.2).bind_left fun as => pure_enlists _
    simpa using hboth

theorem mapM_enlists_empty {xs : List β} {f : β → Drafting α}
    (hf : ∀ x ∈ xs, (f x).Enlists o ∅) : (xs.mapM f).Enlists o ∅ := by
  simpa using mapM_enlists hf

/-! ### Symbols and rules -/

theorem addSymbol_enlists (name : String) {kind : SymbolKind} (hkind : kind ≠ .lexeme)
    (offset : Nat) : (addSymbol name kind offset).Enlists o ∅ := by
  intro d s d' hrun
  obtain ⟨-, rfl⟩ := addSymbol_run hrun
  refine .of_eq rfl rfl rfl fun x hx => ?_
  rw [Draft.kind?, Array.getElem?_push] at hx
  split at hx
  · exact absurd (by simpa using hx) hkind
  · exact hx

theorem addRule_enlists (level : Level) (r : Rule) : (addRule level r).Enlists o ∅ := by
  intro d u d' hrun
  obtain rfl := run_modify.mp hrun
  cases level <;> exact .of_eq rfl rfl rfl fun x hx => hx

theorem addPlain_enlists (level : Level) (lhs : SymbolId) (rhs : List SymbolId) (name : String)
    (semantics : Semantics) (rank : Int) :
    (addPlain level lhs rhs name semantics rank).Enlists o ∅ :=
  addRule_enlists level _

theorem addDeclared_enlists (level : Level) (lhs : SymbolId) (rhs : List SymbolId)
    (name : String) (semantics : Semantics) (rank : Int) (offset : Nat) :
    (addDeclared level lhs rhs name semantics rank offset).Enlists o ∅ := by
  intro d u d' hrun
  rw [addDeclared] at hrun
  obtain ⟨_, _, hget, hrun⟩ := run_bind.mp hrun
  obtain ⟨rfl, rfl⟩ := run_get.mp hget
  split at hrun
  · exact absurd hrun run_refuse
  · obtain ⟨_, e, hset, hrun⟩ := run_bind.mp hrun
    obtain rfl := run_set.mp hset
    have hnoted : d.Enlists o ∅ { d with declared := (level, lhs, rhs) :: d.declared } :=
      .of_eq rfl rfl rfl fun _ h => h
    simpa using hnoted.trans (addPlain_enlists level lhs rhs name semantics rank _ u d' hrun)

/-! ### Elements -/

theorem characterSymbol_enlists (cls : CharClass) (offset : Nat) :
    (characterSymbol cls offset).Enlists o ∅ := by
  rw [characterSymbol]
  refine get_bind_enlists fun d => ?_
  split
  · exact pure_enlists _
  · refine (addSymbol_enlists _ (by simp) _).bind_right fun s => ?_
    exact Enlists.bind_right (modify_enlists (fun _ => rfl) (fun _ => rfl) (fun _ => rfl)
      fun _ => rfl) fun _ => pure_enlists s

theorem characterSymbols_enlists (t : Terminal) (offset : Nat) :
    (characterSymbols t offset).Enlists o ∅ :=
  mapM_enlists_empty fun cls _ => characterSymbol_enlists cls offset

/-- A lexeme for a terminal that has none. -/
theorem enlists_anonymous {d : Draft} {key : String} (hkey : d.anonymous.lookup key = none)
    (offset : Nat) :
    d.Enlists o ∅ { d with
      symbols := d.symbols.push ⟨key, .lexeme⟩
      offsets := d.offsets.push offset
      anonymous := (key, d.symbols.size) :: d.anonymous } where
  anonymous k s h := by
    rw [List.lookup_cons]
    split
    next heq =>
      rw [eq_of_beq heq, hkey] at h
      cases h
    next => exact h
  token s h := h
  name raw hraw := hraw.elim
  spells s h := Or.inl h
  lexeme s h := by
    rw [Draft.kind?, Array.getElem?_push] at h
    split at h
    next heq => exact Or.inr (Or.inr ⟨key, by simp [heq]⟩)
    next => exact Or.inl h

/-- The lexeme of a terminal is known by its spelling. -/
theorem anonymousLexeme_enlists {t : Terminal} {offset : Nat} {d d' : Draft} {s : SymbolId}
    (hrun : (anonymousLexeme t offset).run d = .ok (s, d')) :
    d.Enlists o ∅ d' ∧ ∃ key, d'.anonymous.lookup key = some s := by
  rw [anonymousLexeme] at hrun
  obtain ⟨_, _, hget, hrun⟩ := run_bind.mp hrun
  obtain ⟨rfl, rfl⟩ := run_get.mp hget
  split at hrun
  next id hid =>
    obtain ⟨rfl, rfl⟩ := run_pure.mp hrun
    exact ⟨.refl d, _, hid⟩
  next hnone =>
    obtain ⟨id, d₁, hsymbol, hrun⟩ := run_bind.mp hrun
    obtain ⟨rfl, rfl⟩ := addSymbol_run hsymbol
    obtain ⟨_, d₂, hmodify, hrun⟩ := run_bind.mp hrun
    obtain rfl := run_modify.mp hmodify
    obtain ⟨rhs, d₃, hcharacters, hrun⟩ := run_bind.mp hrun
    obtain ⟨_, d₄, hrule, hrun⟩ := run_bind.mp hrun
    obtain ⟨rfl, rfl⟩ := run_pure.mp hrun
    have hlater := (characterSymbols_enlists (o := o) t offset _ _ _ hcharacters).trans
      (addPlain_enlists _ _ _ _ _ _ _ _ _ hrule)
    refine ⟨by simpa using (enlists_anonymous hnone offset).trans hlater, t.spelling, ?_⟩
    exact hlater.anonymous _ _ (by simp)

/-- A name with lexical rules becomes a token. -/
theorem enlists_of_name {d d' : Draft} {raw name : String} {s : SymbolId}
    (hraw : Element.decode raw = .ok (.name name)) (hs : o.lexicalId? name = some s)
    (hanonymous : d'.anonymous = d.anonymous) (htoken : ∀ x, d'.Token x ↔ d.Token x ∨ x = s)
    (hsymbols : d'.symbols = d.symbols.modify s fun x => { x with kind := .lexeme }) :
    d.Enlists o {raw} d' := by
  refine .of_insert hanonymous htoken (fun x hx => ?_) (Or.inl ⟨raw, rfl, name, hraw, hs⟩) ?_
  · by_cases heq : s = x
    · exact Or.inr heq.symm
    · rw [Draft.kind?, hsymbols, Array.getElem?_modify, if_neg heq] at hx
      exact Or.inl hx
  · intro name' x hname' _ hx
    cases hraw.symm.trans hname'
    exact Option.some.inj (hx.symm.trans hs)

/-- The lexeme of a terminal becomes a token. -/
theorem enlists_of_terminal {d d' : Draft} {raw key : String} {t : Terminal} {s : SymbolId}
    (hraw : Element.decode raw = .ok (.terminal t)) (hs : d.anonymous.lookup key = some s)
    (hanonymous : d'.anonymous = d.anonymous) (htoken : ∀ x, d'.Token x ↔ d.Token x ∨ x = s)
    (hsymbols : d'.symbols = d.symbols) : d.Enlists o {raw} d' := by
  refine .of_insert hanonymous htoken (fun x hx => Or.inl ?_) (Or.inr ⟨key, hs⟩) ?_
  · rwa [Draft.kind?, hsymbols] at hx
  · intro name' x hname'
    cases hraw.symm.trans hname'

theorem namedLexeme_run_eq {name : String} {offset : Nat} {d d' : Draft} {s : SymbolId}
    (hrun : (namedLexeme o name offset).run d = .ok (s, d')) :
    o.lexicalId? name = some s ∧
      d' = { d with symbols := d.symbols.modify s fun x => { x with kind := .lexeme } } := by
  rw [namedLexeme] at hrun
  split at hrun
  next id hid =>
    obtain ⟨_, d₁, hmodify, hrun⟩ := run_bind.mp hrun
    obtain rfl := run_modify.mp hmodify
    obtain ⟨rfl, rfl⟩ := run_pure.mp hrun
    exact ⟨hid, rfl⟩
  next => exact absurd hrun run_refuse

theorem useLexeme_run_eq {id s : SymbolId} {d d' : Draft}
    (hrun : (useLexeme id).run d = .ok (s, d')) :
    s = id ∧ d' = { d with lexemes := insertLast d.lexemes id } := by
  obtain ⟨_, d₁, hmodify, hrun⟩ := run_bind.mp hrun
  obtain rfl := run_modify.mp hmodify
  obtain ⟨rfl, rfl⟩ := run_pure.mp hrun
  exact ⟨rfl, rfl⟩

/-- An element of a structural rule is a token, unless its name has structural rules. -/
theorem structuralSymbol_enlists (raw : String) (offset : Nat) :
    (structuralSymbol o raw offset).Enlists o {raw} := by
  intro d s d' hrun
  obtain ⟨e, d₁, he, hrun⟩ := run_bind.mp hrun
  obtain ⟨hdecode, rfl⟩ := run_lift.mp he
  replace he := Element.decodeAt_eq_ok.mp hdecode
  cases e with
  | name name =>
    simp only at hrun
    split at hrun
    next id hid =>
      obtain ⟨rfl, rfl⟩ := run_pure.mp hrun
      have hrefl := Draft.Enlists.refl (o := o) d
      refine { hrefl with name := ?_, spells := fun s h => Or.inl h }
      rintro _ rfl name' x hname' hnone
      cases he.symm.trans hname'
      rw [hid] at hnone
      cases hnone
    next =>
      obtain ⟨id, d₂, hnamed, hrun⟩ := run_bind.mp hrun
      obtain ⟨hid, rfl⟩ := namedLexeme_run_eq hnamed
      obtain ⟨rfl, rfl⟩ := useLexeme_run_eq hrun
      exact enlists_of_name he hid rfl (Draft.token_insert_lexeme _ _) rfl
  | terminal t =>
    obtain ⟨id, d₂, hanonymous, hrun⟩ := run_bind.mp hrun
    obtain ⟨hquiet, key, hkey⟩ := anonymousLexeme_enlists (o := o) hanonymous
    obtain ⟨rfl, rfl⟩ := useLexeme_run_eq hrun
    have hused : d₂.Enlists o {raw} { d₂ with lexemes := insertLast d₂.lexemes s } :=
      enlists_of_terminal he hkey rfl (Draft.token_insert_lexeme d₂ s) rfl
    simpa using hquiet.trans hused

/-- The elements of items. -/
def elementsOf (items : List RhsItem) : Set String :=
  {raw | raw ∈ items.map (·.element)}

theorem structuralSymbols_enlists (items : List RhsItem) :
    (structuralSymbols o items).Enlists o (elementsOf items) := by
  have h := mapM_enlists fun item (_ : item ∈ items) =>
    structuralSymbol_enlists (o := o) item.element item.offset
  have hraws : ⋃ item ∈ items, {item.element} = elementsOf items := by
    ext raw
    simp [elementsOf, eq_comm]
  rwa [hraws] at h

/-- What is discarded is a token. -/
theorem discard_enlists (raw : String) (offset : Nat) : (discard o raw offset).Enlists o {raw} := by
  intro d u d' hrun
  obtain ⟨s, d₁, hsymbol, hrun⟩ := run_bind.mp hrun
  obtain rfl := run_modify.mp hrun
  obtain ⟨e, d₀, he, hsymbol⟩ := run_bind.mp hsymbol
  obtain ⟨hdecode, rfl⟩ := run_lift.mp he
  replace he := Element.decodeAt_eq_ok.mp hdecode
  cases e with
  | name name =>
    simp only at hsymbol
    split at hsymbol
    · exact absurd hsymbol run_refuse
    · obtain ⟨hid, rfl⟩ := namedLexeme_run_eq hsymbol
      exact enlists_of_name he hid rfl (Draft.token_insert_discard _ _) rfl
  | terminal t =>
    obtain ⟨hquiet, key, hkey⟩ := anonymousLexeme_enlists (o := o) hsymbol
    have hnoted : d₁.Enlists o {raw} { d₁ with discards := insertLast d₁.discards s } :=
      enlists_of_terminal he hkey rfl (Draft.token_insert_discard d₁ s) rfl
    simpa using hquiet.trans hnoted

/-! ### Structural statements -/

/-- The elements of an alternative: its items, and what stands between them. -/
def writtenIn (alt : Alternative) : Set String :=
  {raw | raw ∈ alt.rhs.map (·.element) ++ alt.separators}

theorem mem_writtenIn {alt : Alternative} {raw : String} :
    raw ∈ writtenIn alt ↔ raw ∈ elementsOf alt.rhs ∨ raw ∈ alt.separators :=
  List.mem_append

/-- Only sequences have separators. -/
theorem writtenIn_eq {alt : Alternative} {adverbs : RuleAdverbs}
    (h : RuleAdverbs.read false alt.adverbs = .ok adverbs) :
    writtenIn alt = elementsOf alt.rhs := by
  ext raw
  rw [mem_writtenIn, or_iff_left_iff_imp]
  intro hraw
  obtain ⟨a, ha, rfl⟩ := List.mem_map.mp hraw
  obtain ⟨ha, hname⟩ := List.mem_filter.mp ha
  cases (RuleAdverbs.separator_of_read h ha (eq_of_beq hname)).1

theorem plainAlternative_enlists (lhs : SymbolId) (name : String) (alt : Alternative) :
    (plainAlternative o lhs name alt).Enlists o (writtenIn alt) := by
  rw [plainAlternative]
  refine lift_bind_enlists fun adverbs hadverbs => ?_
  rw [writtenIn_eq hadverbs]
  exact (structuralSymbols_enlists alt.rhs).bind_left fun rhs => addDeclared_enlists _ _ _ _ _ _ _

/-- The separator of a sequence is the one that is written. -/
theorem mem_separators_iff {alt : Alternative} {adverbs : RuleAdverbs} {raw : String}
    (h : RuleAdverbs.read true alt.adverbs = .ok adverbs) :
    raw ∈ alt.separators ↔ ∃ x, adverbs.separator = some x ∧ x.1 = raw := by
  constructor
  · intro hraw
    obtain ⟨a, ha, rfl⟩ := List.mem_map.mp hraw
    obtain ⟨ha, hname⟩ := List.mem_filter.mp ha
    exact ⟨_, (RuleAdverbs.separator_of_read h ha (eq_of_beq hname)).2, rfl⟩
  · rintro ⟨x, hx, rfl⟩
    by_cases hnone : ∀ a ∈ alt.adverbs, a.name ≠ "separator"
    · obtain ⟨_, -, hread⟩ := bind_eq_ok_iff.mp h
      rw [RuleAdverbs.separator_of_foldlM hread hnone] at hx
      cases hx
    · push Not at hnone
      obtain ⟨a, ha, hname⟩ := hnone
      have hseparator := (RuleAdverbs.separator_of_read h ha hname).2
      obtain rfl := Option.some.inj (hseparator.symm.trans hx)
      exact List.mem_map.mpr ⟨a, List.mem_filter.mpr ⟨ha, beq_iff_eq.mpr hname⟩, rfl⟩

theorem separator_enlists (written : Option (String × Nat)) :
    (written.mapM fun x => structuralSymbol o x.1 x.2).Enlists o
      {raw | ∃ x, written = some x ∧ x.1 = raw} := by
  cases written with
  | none =>
    have hraws : {raw | ∃ x : String × Nat, none = some x ∧ x.1 = raw} = ∅ := by
      ext raw
      simp
    rw [hraws]
    exact pure_enlists none
  | some x =>
    have hraws : {raw | ∃ y, some x = some y ∧ y.1 = raw} = {x.1} := by
      ext raw
      simp [eq_comm]
    rw [hraws]
    exact (structuralSymbol_enlists x.1 x.2).bind_left fun s => pure_enlists _

theorem sequence_enlists (lhs : SymbolId) (name : String) {item : RhsItem} {alt : Alternative}
    (hitem : alt.rhs = [item]) : (sequence o lhs name item alt).Enlists o (writtenIn alt) := by
  rw [sequence_eq]
  refine lift_bind_enlists fun adverbs hadverbs => ?_
  have hraws : writtenIn alt =
      {item.element} ∪ {raw | ∃ x, adverbs.separator = some x ∧ x.1 = raw} := by
    ext raw
    rw [mem_writtenIn, mem_separators_iff hadverbs, elementsOf, hitem]
    simp
  rw [hraws]
  refine (structuralSymbol_enlists _ _).bind fun element => ?_
  refine (separator_enlists _).bind_left fun separator => ?_
  -- What is left makes a symbol that is no lexeme, and rules.
  refine (addSymbol_enlists _ (by simp) _).bind_right fun items => ?_
  exact forM_enlists_empty fun r _ => addRule_enlists .structural r

theorem alternative_enlists (lhs : SymbolId) (name : String) (alone : Bool) (alt : Alternative) :
    (alternative o lhs name alone alt).Enlists o (writtenIn alt) := by
  rw [alternative]
  split
  · exact plainAlternative_enlists lhs name alt
  next item hitem =>
    split
    next hsequence =>
      obtain ⟨x, hx⟩ := List.length_eq_one_iff.mp hsequence.1
      have hmem := List.mem_of_find?_eq_some hitem
      rw [hx, List.mem_singleton] at hmem
      exact sequence_enlists lhs name (hmem ▸ hx)
    · exact refuse_enlists _ _

theorem tierAlternative_enlists (lhs : SymbolId) (name : String) (current tighter : SymbolId)
    (alt : Alternative) :
    (tierAlternative o lhs name current tighter alt).Enlists o (writtenIn alt) := by
  rw [tierAlternative]
  split
  · exact refuse_enlists _ _
  · refine lift_bind_enlists fun adverbs hadverbs => ?_
    rw [writtenIn_eq hadverbs]
    refine (mapM_enlists_empty fun item _ => lift_enlists _).bind_right fun elements => ?_
    exact (structuralSymbols_enlists alt.rhs).bind_left
      fun rhs => addDeclared_enlists _ _ _ _ _ _ _

/-- The elements of alternatives. -/
def writtenAmong (alternatives : List Alternative) : Set String :=
  ⋃ alt ∈ alternatives, writtenIn alt

/-- New symbols for tiers, as many as there are numbers. -/
theorem addSymbols_bind_enlists {xs : List β} {name : β → String} {kind : SymbolKind}
    (hkind : kind ≠ .lexeme) {offset : Nat} {f : List SymbolId → Drafting α}
    (hf : ∀ ss, ss.length = xs.length → (f ss).Enlists o raws) :
    ((xs.mapM fun x => addSymbol (name x) kind offset) >>= f).Enlists o raws := by
  intro d b d' hrun
  obtain ⟨ss, e, hss, hrun'⟩ := run_bind.mp hrun
  have hlength : ss.length = xs.length :=
    mapM_induction (P := fun xs ss _ => ss.length = xs.length) hss rfl
      fun ys bs y a e e' _ h _ => by simp [h]
  have hquiet : d.Enlists o ∅ e :=
    mapM_enlists_empty (fun x _ => addSymbol_enlists (name x) hkind offset) d ss e hss
  simpa using hquiet.trans (hf ss hlength e b d' hrun')

theorem precedence_enlists (lhs : SymbolId) (name : String) (tiers : List (List Alternative)) :
    (precedence o lhs name tiers).Enlists o (writtenAmong tiers.flatten) := by
  rw [precedence_eq]
  refine get_bind_enlists fun d => ?_
  refine addSymbols_bind_enlists (by simp) fun levels hlevels => ?_
  refine (forM_enlists_empty fun r _ => addRule_enlists .structural r).bind_right fun _ => ?_
  have h := forM_enlists fun x (_ : x ∈ tiers.zip (levels.zip (levels.take 1 ++ levels))) =>
    forM_enlists fun alt (_ : alt ∈ x.1) =>
      tierAlternative_enlists (o := o) lhs name x.2.1 x.2.2 alt
  -- Each tier has its two symbols.
  have htiers : (tiers.zip (levels.zip (levels.take 1 ++ levels))).map Prod.fst = tiers := by
    rw [List.length_range] at hlevels
    exact List.map_fst_zip (by simp [hlevels])
  have hraws : ⋃ x ∈ tiers.zip (levels.zip (levels.take 1 ++ levels)), ⋃ alt ∈ x.1, writtenIn alt =
      writtenAmong tiers.flatten := by
    ext raw
    conv_rhs => rw [← htiers]
    simp [writtenAmong]
  rw [hraws] at h
  exact h

/-- The elements of a structural statement whose name the outline has. -/
theorem structural_enlists {spelling : String} (tiers : List (List Alternative)) (offset : Nat)
    (hname : ∀ name, Element.decode spelling = .ok (.name name) →
      ∃ id, o.structuralId? name = some id) :
    (structural o spelling tiers offset).Enlists o (writtenAmong tiers.flatten) := by
  rw [structural]
  refine lift_bind_enlists fun name hdecode => ?_
  obtain ⟨id, hid⟩ := hname name (Element.decodeNameAt_eq_ok.mp hdecode)
  rw [hid]
  simp only
  split
  next alternatives =>
    rw [List.flatten_singleton]
    exact forM_enlists fun alt _ => alternative_enlists _ name _ alt
  · exact precedence_enlists _ name tiers

/-! ### Lexical statements -/

theorem quantified_enlists (name : String) (body : List SymbolId) (quantifier : Quantifier)
    (offset : Nat) : (quantified name body quantifier offset).Enlists o ∅ := by
  rw [quantified]
  refine get_bind_enlists fun d => ?_
  refine (addSymbol_enlists _ (by simp) _).bind_right fun s => ?_
  exact (forM_enlists_empty fun rhs _ => addPlain_enlists _ _ _ _ _ _).bind_right
    fun _ => pure_enlists s

theorem lexicalBody_enlists (lhs : SymbolId) (item : RhsItem) :
    (lexicalBody o lhs item).Enlists o ∅ := by
  rw [lexicalBody]
  refine lift_bind_enlists fun element _ => ?_
  split
  · exact characterSymbols_enlists _ _
  · split
    · exact refuse_enlists _ _
    · split
      · exact refuse_enlists _ _
      · exact Enlists.bind_right (modify_enlists (fun _ => rfl) (fun _ => rfl) (fun _ => rfl)
          fun _ => rfl) fun _ => pure_enlists _

theorem lexicalItem_enlists (lhs : SymbolId) (name : String) (item : RhsItem) :
    (lexicalItem o lhs name item).Enlists o ∅ := by
  rw [lexicalItem]
  refine (lexicalBody_enlists lhs item).bind_right fun body => ?_
  split
  · exact pure_enlists body
  · exact (quantified_enlists _ _ _ _).bind_right fun s => pure_enlists _

theorem lexicalAlternative_enlists (lhs : SymbolId) (name : String) (alt : Alternative) :
    (lexicalAlternative o lhs name alt).Enlists o ∅ := by
  rw [lexicalAlternative]
  split
  · exact refuse_enlists _ _
  · refine (mapM_enlists_empty fun item _ => lexicalItem_enlists lhs name item).bind_right
      fun parts => ?_
    exact addDeclared_enlists _ _ _ _ _ _ _

theorem lexical_enlists (spelling : String) (alternatives : List Alternative) (offset : Nat) :
    (lexical o spelling alternatives offset).Enlists o ∅ := by
  rw [lexical]
  refine lift_bind_enlists fun name _ => ?_
  split
  · exact pure_enlists ()
  · exact forM_enlists_empty fun alt _ => lexicalAlternative_enlists _ name alt

/-! ### All statements -/

/-- What a statement discards. -/
def discardedIn : Statement → Set String
  | .discard raw _ => {raw}
  | _ => ∅

/-- What a statement writes in structural rules. -/
def usedIn : Statement → Set String
  | .structural _ tiers _ => writtenAmong tiers.flatten
  | _ => ∅

theorem mem_elements_iff {x : Statement} {raw : String} :
    raw ∈ x.elements ↔ raw ∈ discardedIn x ∨ raw ∈ usedIn x := by
  cases x with
  | structural spelling tiers offset =>
    simp only [Statement.elements, discardedIn, usedIn, writtenAmong, writtenIn, List.mem_flatMap,
      Set.mem_empty_iff_false, false_or, Set.mem_iUnion, exists_prop, Set.mem_ofPred_eq]
  | _ => simp [Statement.elements, discardedIn, usedIn]

theorem discardStatement_enlists (x : Statement) :
    (discardStatement o x).Enlists o (discardedIn x) := by
  cases x with
  | discard raw offset => exact discard_enlists raw offset
  | _ => exact pure_enlists ()

theorem structuralStatement_enlists {ss : List Statement} (ho : Outline.ofStatements ss = .ok o)
    {x : Statement} (hx : x ∈ ss) : (structuralStatement o x).Enlists o (usedIn x) := by
  cases x with
  | structural spelling tiers offset =>
    refine structural_enlists tiers offset fun name hname => ?_
    rw [← Outline.isStructural_iff, (Outline.lists_of_ofStatements ho).structural]
    exact ⟨_, hx, Outline.structural_name hname⟩
  | _ => exact pure_enlists ()

theorem lexicalStatement_enlists (x : Statement) : (lexicalStatement o x).Enlists o ∅ := by
  cases x with
  | lexical spelling alternatives offset => exact lexical_enlists _ _ _
  | _ => exact pure_enlists ()

/-- The tokens of statements are those of their elements. -/
theorem statements_enlists {ss : List Statement} (ho : Outline.ofStatements ss = .ok o) :
    (statements o ss).Enlists o {raw | ∃ x ∈ ss, raw ∈ x.elements} := by
  have h : (ss.forM (discardStatement o) >>= fun _ => ss.forM (structuralStatement o) >>= fun _ =>
      ss.forM (lexicalStatement o)).Enlists o ((⋃ x ∈ ss, discardedIn x) ∪ ⋃ x ∈ ss, usedIn x) :=
    (forM_enlists fun x _ => discardStatement_enlists x).bind fun _ =>
      (forM_enlists fun x hx => structuralStatement_enlists ho hx).bind_left fun _ =>
        forM_enlists_empty fun x _ => lexicalStatement_enlists x
  have hraws : (⋃ x ∈ ss, discardedIn x) ∪ ⋃ x ∈ ss, usedIn x =
      {raw | ∃ x ∈ ss, raw ∈ x.elements} := by
    ext raw
    simp only [Set.mem_union, Set.mem_iUnion, exists_prop, Set.mem_ofPred_eq, mem_elements_iff,
      and_or_left, exists_or]
  rw [statements_eq, ← hraws]
  exact h

end Drafting

namespace Drafted

variable {ss : List Statement} {g : Grammar} {o : Outline} {d : Draft} {s : SymbolId}

/-- A token is the symbol of a name with lexical rules that is written among lexemes, or of a
    terminal. -/
theorem exists_of_token (h : Drafted ss g o d) (hs : d.Token s) :
    (∃ x ∈ ss, ∃ raw ∈ x.elements, ∃ name, Element.decode raw = .ok (.name name) ∧
      o.lexicalId? name = some s) ∨ ∃ t : Terminal, t.Written ∧ d.IsTerminal t s := by
  have henlists := Drafting.statements_enlists h.outline _ _ _ h.draft
  rcases henlists.spells s hs with hs | ⟨raw, ⟨x, hx, hraw⟩, hname⟩ | ⟨key, hkey⟩
  · rcases hs with hs | hs <;> cases hs
  · exact Or.inl ⟨x, hx, raw, hraw, hname⟩
  · obtain ⟨t, ht, -, -, hterminal⟩ := h.orderly.anonymous key s hkey
    exact Or.inr ⟨t, ht, hterminal⟩

/-- A name with lexical rules that is written among lexemes is a token. -/
theorem token_of_name (h : Drafted ss g o d) {x : Statement} (hx : x ∈ ss) {raw name : String}
    (hraw : raw ∈ x.elements) (hdecode : Element.decode raw = .ok (.name name))
    (hs : o.lexicalId? name = some s) : d.Token s := by
  have henlists := Drafting.statements_enlists h.outline _ _ _ h.draft
  exact henlists.name raw ⟨x, hx, hraw⟩ name s hdecode
    (Outline.structuralId?_eq_none h.outline hs) hs

/-- A lexeme is a token or belongs to a terminal. -/
theorem token_of_lexeme (h : Drafted ss g o d) (hs : d.kind? s = some .lexeme) :
    d.Token s ∨ ∃ t : Terminal, t.Written ∧ d.IsTerminal t s := by
  have henlists := Drafting.statements_enlists h.outline _ _ _ h.draft
  rcases henlists.lexeme s hs with hs | hs | ⟨key, hkey⟩
  · exact absurd hs (Draft.kind?_ofOutline_ne o s)
  · exact Or.inl hs
  · obtain ⟨t, ht, -, -, hterminal⟩ := h.orderly.anonymous key s hkey
    exact Or.inr ⟨t, ht, hterminal⟩

end Drafted

end Scannerless
