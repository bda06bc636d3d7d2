import Mathlib.Data.List.Forall2
import Scannerless.Draft.Basic
import Scannerless.Proofs.Grammar.Drafting
import Scannerless.Proofs.Grammar.Spellings
import Scannerless.Proofs.Outcomes

/-!
# How a draft grows

A step that reads statements adds rules at the end of both tables. Only symbols that the
step names or makes get rules, so that the rules of all others stay as they are. Characters
and terminals keep the symbol that their spelling has got.

## Main definitions

- `Draft.rulesOf` — the rules of a symbol on a level.
- `Draft.Grows` — what a step adds to a draft, and what it leaves.
- `Draft.Orderly` — the invariant of all steps: what names, characters and terminals are.

## Main statements

- `Drafting.run_bind`, `Drafting.forM_induction`, `Drafting.mapM_induction` — runs of steps
  one after the other.
- `Draft.Grows.rulesOf_eq` — the rules of other symbols stay as they are.
- `Draft.Orderly.of_grows` — a step keeps the invariant.
-/

namespace Scannerless

/-! ### Runs of steps -/

namespace Drafting

variable {α β : Type} {d d' : Draft}

theorem run_bind {m : Drafting α} {f : α → Drafting β} {b : β} :
    (m >>= f).run d = .ok (b, d') ↔
      ∃ a e, m.run d = .ok (a, e) ∧ (f a).run e = .ok (b, d') := by
  rw [StateT.run_bind, bind_eq_ok_iff]
  constructor
  · rintro ⟨⟨a, e⟩, hm, hf⟩
    exact ⟨a, e, hm, hf⟩
  · rintro ⟨a, e, hm, hf⟩
    exact ⟨(a, e), hm, hf⟩

theorem run_pure {a b : α} : (pure a : Drafting α).run d = .ok (b, d') ↔ a = b ∧ d = d' := by
  constructor
  · intro h
    exact Prod.mk.inj (Except.ok.inj h)
  · rintro ⟨rfl, rfl⟩
    rfl

theorem run_lift {x : Except Fault α} {a : α} :
    (liftM x : Drafting α).run d = .ok (a, d') ↔ x = .ok a ∧ d = d' := by
  cases x with
  | error fault =>
    constructor
    · intro h
      cases h
    · rintro ⟨h, -⟩
      cases h
  | ok b =>
    constructor
    · intro h
      obtain ⟨rfl, rfl⟩ := Prod.mk.inj (Except.ok.inj h)
      exact ⟨rfl, rfl⟩
    · rintro ⟨h, rfl⟩
      obtain rfl := Except.ok.inj h
      rfl

theorem run_get {a : Draft} : (get : Drafting Draft).run d = .ok (a, d') ↔ d = a ∧ d = d' :=
  run_pure

theorem run_set {e : Draft} {u : PUnit} :
    (set e : Drafting PUnit).run d = .ok (u, d') ↔ e = d' := by
  constructor
  · intro h
    exact (Prod.mk.inj (Except.ok.inj h)).2
  · rintro rfl
    rfl

theorem run_modify {f : Draft → Draft} {u : PUnit} :
    (modify f : Drafting PUnit).run d = .ok (u, d') ↔ f d = d' := by
  constructor
  · intro h
    exact (Prod.mk.inj (Except.ok.inj h)).2
  · rintro rfl
    rfl

theorem run_refuse {cause : Cause} {offset : Nat} {a : α} :
    ¬(refuse cause offset : Drafting α).run d = .ok (a, d') := by
  intro h
  cases h

/-- What is so before a loop, and what each pass keeps, is so after the loop. -/
theorem forM_induction {xs : List β} {f : β → Drafting Unit} {u : Unit}
    {P : List β → Draft → Prop} (h : (xs.forM f).run d = .ok (u, d')) (hnil : P [] d)
    (hstep : ∀ ys y e e', y ∈ xs → P ys e → (f y).run e = .ok ((), e') → P (ys ++ [y]) e') :
    P xs d' := by
  suffices hsuffices : ∀ ys zs e, xs = ys ++ zs → P ys e →
      (zs.forM f).run e = .ok (u, d') → P xs d' from hsuffices [] xs d rfl hnil h
  intro ys zs
  induction zs generalizing ys with
  | nil =>
    intro e hxs hys hrun
    obtain ⟨-, rfl⟩ := run_pure.mp hrun
    rwa [hxs, List.append_nil]
  | cons z zs ih =>
    intro e hxs hys hrun
    have hrun' : (f z >>= fun _ => zs.forM f).run e = .ok (u, d') := hrun
    obtain ⟨_, e', hz, hzs⟩ := run_bind.mp hrun'
    have hmem : z ∈ xs := by simp [hxs]
    exact ih (ys ++ [z]) e' (by simp [hxs]) (hstep ys z e e' hmem hys hz) hzs

/-- What is so before a loop that makes a list, and what each pass keeps, is so after the
    loop. -/
theorem mapM_induction {xs : List β} {f : β → Drafting α} {as : List α}
    {P : List β → List α → Draft → Prop} (h : (xs.mapM f).run d = .ok (as, d'))
    (hnil : P [] [] d)
    (hstep : ∀ ys bs y a e e', y ∈ xs → P ys bs e → (f y).run e = .ok (a, e') →
      P (ys ++ [y]) (bs ++ [a]) e') : P xs as d' := by
  suffices hsuffices : ∀ ys bs zs cs e, xs = ys ++ zs → P ys bs e →
      (zs.mapM f).run e = .ok (cs, d') → P xs (bs ++ cs) d' by
    simpa using hsuffices [] [] xs as d rfl hnil h
  intro ys bs zs
  induction zs generalizing ys bs with
  | nil =>
    intro cs e hxs hys hrun
    rw [List.mapM_nil, run_pure] at hrun
    obtain ⟨rfl, rfl⟩ := hrun
    simpa [hxs] using hys
  | cons z zs ih =>
    intro cs e hxs hys hrun
    rw [List.mapM_cons, run_bind] at hrun
    obtain ⟨c, e', hz, hrun⟩ := hrun
    obtain ⟨cs', e'', hzs, hrun⟩ := run_bind.mp hrun
    obtain ⟨rfl, rfl⟩ := run_pure.mp hrun
    have hmem : z ∈ xs := by simp [hxs]
    have hall := ih (ys ++ [z]) (bs ++ [c]) cs' e' (by simp [hxs])
      (hstep ys bs z c e e' hmem hys hz) hzs
    simpa using hall

end Drafting

/-- Of two lists that belong together, an element of the one has a partner in the other. -/
theorem exists_mem_of_forall₂ {α β : Type} {R : α → β → Prop} {as : List α} {bs : List β}
    (h : List.Forall₂ R as bs) {a : α} (ha : a ∈ as) : ∃ b ∈ bs, R a b := by
  induction h with
  | nil => cases ha
  | @cons x y _ _ hxy _ ih =>
    rcases List.mem_cons.mp ha with rfl | ha
    · exact ⟨y, List.mem_cons_self, hxy⟩
    · obtain ⟨b, hb, hab⟩ := ih ha
      exact ⟨b, List.mem_cons_of_mem y hb, hab⟩

/-! ### Rules of a draft -/

namespace Level

/-- What belongs to a level, given what belongs to the one and to the other. -/
def pick {α : Type} (structural lexical : α) : Level → α
  | .structural => structural
  | .lexical => lexical

end Level

/-- Whether a symbol is one of the names that statements define. -/
def Outline.IsName (o : Outline) (s : SymbolId) : Prop :=
  s < o.structural.length + o.lexical.length

namespace Draft

variable {o : Outline} {d d' d'' : Draft} {T T' : SymbolId → Prop} {S S' L L' : List Rule}
  {s : SymbolId}

/-- The rules of a level, in the order they were added. -/
def rules (d : Draft) (level : Level) : List Rule :=
  level.pick d.structural.toList d.lexical.toList

/-- The rules of a symbol on a level. -/
def rulesOf (d : Draft) (level : Level) (s : SymbolId) : List Rule :=
  (d.rules level).filter (·.lhs == s)

/-- A symbol stands for the characters of a class. -/
def IsCharacter (d : Draft) (cls : CharClass) (s : SymbolId) : Prop :=
  d.symbols[s]? = some ⟨cls.spelling, .char cls⟩

/-- The rule of a lexeme that consists of a terminal. -/
def terminalRule (t : Terminal) (s : SymbolId) (rhs : List SymbolId) : Rule :=
  ⟨s, rhs, t.spelling, .apply none, rhs.map fun _ => true, 0⟩

/-- A symbol is the lexeme that consists of a terminal: its only rule has the characters of
    the terminal. -/
def IsTerminal (d : Draft) (t : Terminal) (s : SymbolId) : Prop :=
  d.symbols[s]? = some ⟨t.spelling, .lexeme⟩ ∧
    ∃ rhs, List.Forall₂ d.IsCharacter t.classes rhs ∧
      d.rulesOf .lexical s = [terminalRule t s rhs]

/-- Symbols that may get rules when statements are read: all but the lexemes of
    terminals. -/
def Open (d : Draft) (s : SymbolId) : Prop :=
  ∀ key, d.anonymous.lookup key ≠ some s

/-- A draft grows into another one by structural rules `S` and lexical rules `L`. Their left
    symbols are new ones or are in `T`. Symbols keep their names, and lexical symbols may
    become lexemes. -/
structure Grows (d : Draft) (T : SymbolId → Prop) (S L : List Rule) (d' : Draft) : Prop where
  size_le : d.symbols.size ≤ d'.symbols.size
  symbol : ∀ (s : SymbolId) (x : Symbol), d.symbols[s]? = some x →
    ∃ k, d'.symbols[s]? = some (Symbol.mk x.name k) ∧ (k = x.kind ∨ x.kind = .lexical ∧ k = .lexeme)
  characters : ∀ key s, d.characters.lookup key = some s → d'.characters.lookup key = some s
  anonymous : ∀ key s, d.anonymous.lookup key = some s → d'.anonymous.lookup key = some s
  discards : ∀ s ∈ d.discards, s ∈ d'.discards
  rules : ∀ level, d'.rules level = d.rules level ++ level.pick S L
  owned : ∀ r ∈ S ++ L, T r.lhs ∨ d.symbols.size ≤ r.lhs
  bounded : ∀ r ∈ S ++ L, r.lhs < d'.symbols.size

/-- A draft that only gains lexical rules, of new symbols. -/
abbrev Gains (d : Draft) (L : List Rule) (d' : Draft) : Prop :=
  d.Grows (fun _ => False) [] L d'

/-- Every spelling of a character has the symbol of the class that it is the spelling of. -/
def SpellsCharacters (d : Draft) : Prop :=
  ∀ key s, d.characters.lookup key = some s →
    ∃ cls : CharClass, cls.Written ∧ key = cls.spelling ∧ d.IsCharacter cls s

/-- What is so of a draft after every step: its first symbols are the names, and every
    spelling of a character or a terminal has the symbol that belongs to it. -/
structure Orderly (o : Outline) (d : Draft) : Prop where
  structuralName : ∀ (i : Nat) (e : String × Nat), o.structural[i]? = some e →
    d.symbols[i]? = some (Symbol.mk e.1 .nonterminal)
  lexicalName : ∀ (i : Nat) (e : String × Nat), o.lexical[i]? = some e →
    ∃ k, d.symbols[o.structural.length + i]? = some (Symbol.mk e.1 k) ∧ (k = .lexical ∨ k = .lexeme)
  bounded : ∀ level, ∀ r ∈ d.rules level, r.lhs < d.symbols.size
  characters : d.SpellsCharacters
  anonymous : ∀ key s, d.anonymous.lookup key = some s →
    ∃ t : Terminal, t.Written ∧ key = t.spelling ∧ ¬o.IsName s ∧ d.IsTerminal t s

theorem rulesOf_eq_nil (hd : d.Orderly o) (level : Level) (hs : d.symbols.size ≤ s) :
    d.rulesOf level s = [] := by
  rw [rulesOf, List.filter_eq_nil_iff]
  intro r hr hlhs
  have hlt := hd.bounded level r hr
  rw [eq_of_beq hlhs] at hlt
  exact Nat.not_lt_of_le hs hlt

theorem Grows.refl (d : Draft) (T : SymbolId → Prop) : d.Grows T [] [] d where
  size_le := Nat.le_refl _
  symbol s x h := ⟨x.kind, h, Or.inl rfl⟩
  characters _ _ h := h
  anonymous _ _ h := h
  discards _ h := h
  rules level := by cases level <;> simp [Level.pick]
  owned := by simp
  bounded := by simp

/-- Tables other than those of symbols, characters and terminals and those of rules may
    change. -/
theorem Grows.of_eq (hsymbols : d'.symbols = d.symbols) (hcharacters : d'.characters = d.characters)
    (hanonymous : d'.anonymous = d.anonymous) (hdiscards : ∀ s ∈ d.discards, s ∈ d'.discards)
    (hstructural : d'.structural = d.structural) (hlexical : d'.lexical = d.lexical) :
    d.Grows T [] [] d' where
  size_le := Nat.le_of_eq (by rw [hsymbols])
  symbol s x h := ⟨x.kind, by rw [hsymbols, h], Or.inl rfl⟩
  characters _ _ h := by rw [hcharacters, h]
  anonymous _ _ h := by rw [hanonymous, h]
  discards := hdiscards
  rules level := by cases level <;> simp [Draft.rules, Level.pick, hstructural, hlexical]
  owned := by simp
  bounded := by simp

theorem Grows.trans (h : d.Grows T S L d') (h' : d'.Grows T' S' L' d'')
    (hT : ∀ s, T' s → T s ∨ d.symbols.size ≤ s) :
    d.Grows T (S ++ S') (L ++ L') d'' where
  size_le := Nat.le_trans h.size_le h'.size_le
  symbol s x hx := by
    obtain ⟨k, hk, hkind⟩ := h.symbol s x hx
    obtain ⟨k', hk', hkind'⟩ := h'.symbol s _ hk
    refine ⟨k', hk', ?_⟩
    rcases hkind with rfl | ⟨hlexical, rfl⟩
    · exact hkind'
    · rcases hkind' with rfl | ⟨hcontra, -⟩
      · exact Or.inr ⟨hlexical, rfl⟩
      · cases hcontra
  characters key s hs := h'.characters key s (h.characters key s hs)
  anonymous key s hs := h'.anonymous key s (h.anonymous key s hs)
  discards s hs := h'.discards s (h.discards s hs)
  rules level := by
    rw [h'.rules, h.rules, List.append_assoc]
    cases level <;> rfl
  owned r hr := by
    have hparts : r ∈ S ++ L ∨ r ∈ S' ++ L' := by
      simp only [List.mem_append] at hr ⊢
      tauto
    rcases hparts with hr | hr
    · exact h.owned r hr
    · rcases h'.owned r hr with hr | hr
      · exact hT _ hr
      · exact Or.inr (Nat.le_trans h.size_le hr)
  bounded r hr := by
    have hparts : r ∈ S ++ L ∨ r ∈ S' ++ L' := by
      simp only [List.mem_append] at hr ⊢
      tauto
    rcases hparts with hr | hr
    · exact Nat.lt_of_lt_of_le (h.bounded r hr) h'.size_le
    · exact h'.bounded r hr

theorem Grows.mono (h : d.Grows T S L d') (hT : ∀ s, T s → T' s ∨ d.symbols.size ≤ s) :
    d.Grows T' S L d' :=
  (Grows.refl d T').trans h hT

/-- The rules of other symbols stay as they are. -/
theorem Grows.rulesOf_eq (h : d.Grows T S L d') (level : Level) (hs : s < d.symbols.size)
    (hT : ¬T s) : d'.rulesOf level s = d.rulesOf level s := by
  have hnone : (level.pick S L).filter (·.lhs == s) = [] := by
    rw [List.filter_eq_nil_iff]
    intro r hr hlhs
    have hmem : r ∈ S ++ L := by
      cases level with
      | structural => exact List.mem_append_left L hr
      | lexical => exact List.mem_append_right S hr
    rcases h.owned r hmem with howned | hnew
    · exact hT (eq_of_beq hlhs ▸ howned)
    · rw [eq_of_beq hlhs] at hnew
      exact Nat.not_lt_of_le hnew hs
  rw [rulesOf, h.rules, List.filter_append, hnone, List.append_nil, rulesOf]

/-- The rules of a symbol grow by those that are added. -/
theorem Grows.rulesOf_append (h : d.Grows T S L d') (level : Level) (s : SymbolId) :
    d'.rulesOf level s = d.rulesOf level s ++ (level.pick S L).filter (·.lhs == s) := by
  rw [rulesOf, h.rules, List.filter_append, rulesOf]

/-- A step that only gains lexical rules gains those of new symbols. -/
theorem Gains.fresh (h : d.Gains L d') : ∀ r ∈ L, d.symbols.size ≤ r.lhs := fun r hr =>
  (h.owned r hr).elim False.elim id

/-- What is new to a later draft is new to an earlier one. -/
theorem Grows.fresh_append (h : d.Grows T S L d') {R R' : List Rule}
    (hfresh : ∀ r ∈ R, d.symbols.size ≤ r.lhs) (hfresh' : ∀ r ∈ R', d'.symbols.size ≤ r.lhs) :
    ∀ r ∈ R ++ R', d.symbols.size ≤ r.lhs := by
  intro r hr
  rcases List.mem_append.mp hr with hr | hr
  · exact hfresh r hr
  · exact Nat.le_trans h.size_le (hfresh' r hr)

/-- Symbols that are not lexical stay as they are. -/
theorem Grows.symbol_eq (h : d.Grows T S L d') {x : Symbol} (hs : d.symbols[s]? = some x)
    (hx : x.kind ≠ .lexical) : d'.symbols[s]? = some x := by
  obtain ⟨k, hk, hkind⟩ := h.symbol s x hs
  rcases hkind with rfl | ⟨hlexical, -⟩
  · exact hk
  · exact absurd hlexical hx

theorem Grows.isCharacter (h : d.Grows T S L d') {cls : CharClass} (hs : d.IsCharacter cls s) :
    d'.IsCharacter cls s :=
  h.symbol_eq hs nofun

theorem Grows.kind?_nonterminal (h : d.Grows T S L d') (hs : d.kind? s = some .nonterminal) :
    d'.kind? s = some .nonterminal := by
  rw [kind?, Option.map_eq_some_iff] at hs ⊢
  obtain ⟨x, hx, hkind⟩ := hs
  exact ⟨x, h.symbol_eq hx (by simp [hkind]), hkind⟩

theorem lt_of_symbol {x : Symbol} (h : d.symbols[s]? = some x) : s < d.symbols.size :=
  (Array.getElem?_eq_some_iff.mp h).1

theorem Grows.isTerminal (h : d.Grows T S L d') {t : Terminal} (hs : d.IsTerminal t s)
    (hT : ¬T s) : d'.IsTerminal t s := by
  obtain ⟨hsymbol, rhs, hrhs, hrules⟩ := hs
  refine ⟨h.symbol_eq hsymbol nofun, rhs, hrhs.imp fun _ _ => h.isCharacter, ?_⟩
  rw [h.rulesOf_eq .lexical (lt_of_symbol hsymbol) hT, hrules]

theorem SpellsCharacters.of_grows (hd : d.SpellsCharacters) (h : d.Grows T S L d')
    (hcharacters : d'.characters = d.characters) : d'.SpellsCharacters := by
  intro key s hs
  rw [hcharacters] at hs
  obtain ⟨cls, hcls, hkey, hchar⟩ := hd key s hs
  exact ⟨cls, hcls, hkey, h.isCharacter hchar⟩

/-- A step keeps the invariant if it makes no more than symbols of characters and terminals
    that belong to their spellings. -/
theorem Orderly.of_grows (hd : d.Orderly o) (h : d.Grows T S L d') (hT : ∀ s, T s → d.Open s)
    (hcharacters : d'.SpellsCharacters)
    (hanonymous : ∀ key s, d'.anonymous.lookup key = some s →
      d.anonymous.lookup key = some s ∨
        ∃ t : Terminal, t.Written ∧ key = t.spelling ∧ ¬o.IsName s ∧ d'.IsTerminal t s) :
    d'.Orderly o where
  structuralName i e he := h.symbol_eq (hd.structuralName i e he) nofun
  lexicalName i e he := by
    obtain ⟨k, hk, hkind⟩ := hd.lexicalName i e he
    obtain ⟨k', hk', hkind'⟩ := h.symbol _ _ hk
    refine ⟨k', hk', ?_⟩
    rcases hkind' with rfl | ⟨-, rfl⟩
    · exact hkind
    · exact Or.inr rfl
  bounded level r hr := by
    rw [h.rules, List.mem_append] at hr
    rcases hr with hr | hr
    · exact Nat.lt_of_lt_of_le (hd.bounded level r hr) h.size_le
    · refine h.bounded r ?_
      cases level with
      | structural => exact List.mem_append_left L hr
      | lexical => exact List.mem_append_right S hr
  characters := hcharacters
  anonymous key s hs := by
    rcases hanonymous key s hs with hs | hs
    · obtain ⟨t, ht, hkey, hname, hterminal⟩ := hd.anonymous key s hs
      have hclosed : ¬T s := fun howned => hT s howned key hs
      exact ⟨t, ht, hkey, hname, h.isTerminal hterminal hclosed⟩
    · exact hs

/-- A step that makes no symbols of characters and terminals keeps the invariant. -/
theorem Orderly.of_grows_eq (hd : d.Orderly o) (h : d.Grows T S L d')
    (hT : ∀ s, T s → d.Open s) (hcharacters : d'.characters = d.characters)
    (hanonymous : d'.anonymous = d.anonymous) : d'.Orderly o :=
  hd.of_grows h hT (hd.characters.of_grows h hcharacters) fun _ _ hs =>
    Or.inl (hanonymous ▸ hs)

/-- Names may get rules. -/
theorem Orderly.open_of_isName (hd : d.Orderly o) (hs : o.IsName s) : d.Open s := by
  intro key hkey
  obtain ⟨-, -, -, hname, -⟩ := hd.anonymous key s hkey
  exact hname hs

/-- Symbols that do not become lexemes may get rules. -/
theorem Orderly.open_of_kind? (hd : d.Orderly o) (hs : d.kind? s ≠ some .lexeme) :
    d.Open s := by
  intro key hkey
  obtain ⟨t, -, -, -, hsymbol, -⟩ := hd.anonymous key s hkey
  exact hs (by rw [kind?, hsymbol]; rfl)

/-- The draft of an outline has its names and nothing else. -/
theorem orderly_ofOutline (o : Outline) : (Draft.ofOutline o).Orderly o where
  structuralName i e he := by
    obtain ⟨hlt, rfl⟩ := List.getElem?_eq_some_iff.mp he
    simp [ofOutline, List.getElem?_append, hlt]
  lexicalName i e he := by
    simp [ofOutline, List.getElem?_append, he]
  bounded level r hr := by cases level <;> simp [Draft.rules, Level.pick, ofOutline] at hr
  characters key s hs := by simp [ofOutline] at hs
  anonymous key s hs := by simp [ofOutline] at hs

theorem Orderly.lt_of_isName (hd : d.Orderly o) (hs : o.IsName s) : s < d.symbols.size := by
  by_cases h : s < o.structural.length
  · exact lt_of_symbol (hd.structuralName s _ (List.getElem?_eq_getElem h))
  · obtain ⟨i, rfl⟩ := Nat.exists_eq_add_of_le (Nat.le_of_not_lt h)
    have hlt : i < o.lexical.length := Nat.lt_of_add_lt_add_left hs
    obtain ⟨k, hk, -⟩ := hd.lexicalName _ _ (List.getElem?_eq_getElem hlt)
    exact lt_of_symbol hk

end Draft

end Scannerless
