import Scannerless.Proofs.Grammar.Changes
import Scannerless.Proofs.Grammar.FaultPlaces
import Scannerless.Proofs.Grammar.Lexemes

/-!
# Terminals that share symbols

Terminals are told apart by their spellings: a literal by its text as it is escaped, a character
by its quotation, and a class by its body. An element among lexemes has the lexeme of its
terminal, and an element of a lexical rule has the symbols of the characters of its terminal.
Two elements have the same lexeme if and only if they are the same terminal, and two characters
have the same symbol if and only if they are the same, however they are written. No such symbol is
that of a name, even if the name is spelled in the same way.

## Main definitions

- `Element.SameTerminal`, `Element.SameCharacter` — what may share a symbol.
- `Draft.Catalogues` — all symbols of characters are found by their spellings.

## Main statements

- `Drafted.catalogues` — the draft of a list of statements finds them.
- `Lowered.standsFor_eq_iff`, `Lowered.body_eq_iff` — what shares a symbol.
- `terminals_shared` — the symbols of terminals in the grammar of accepted statements.
-/

namespace Scannerless

open Text

/-! ### The same terminals -/

namespace CharClass

/-- Classes with the same spelling have the same body. -/
theorem body_eq_of_parse {body body' : List Char} {cls : CharClass} (h : parse body = .ok cls)
    (h' : parse body' = .ok cls) : body = body' := by
  have hlist := (toList_spelling_of_parse h).symm.trans (toList_spelling_of_parse h')
  exact List.append_cancel_right (List.cons.inj hlist).2

theorem single_injective {c c' : Char} (h : single c = single c') : c = c' :=
  quoteChar_injective (congrArg CharClass.spelling h)

end CharClass

namespace Terminal

/-- The class at a place of a literal is that of the character there. -/
theorem getElem?_classes_literal (text : List Char) (i : Nat) :
    (literal text).classes[i]? = text[i]?.map CharClass.single :=
  List.getElem?_map

theorem eq_of_getElem?_classes {cls cls' : CharClass} {i : Nat}
    (h : (charClass cls).classes[i]? = some cls') : cls = cls' :=
  (List.mem_singleton.mp (List.mem_of_getElem? h)).symm

end Terminal

namespace Element

variable {raw raw' : String} {t t' : Terminal} {cls cls' : CharClass} {i j : Nat}

/-- What stands between the first and the last character of a spelling, blanks around it
    aside. -/
def body (raw : String) : List Char :=
  inside (trimChars raw.toList)

/-- Two spellings are those of literals with the same text, or of classes with the same body. -/
inductive SameTerminal (raw raw' : String) : Prop where
  | literal {text : List Char} (h : decode raw = .ok (.terminal (.literal text)))
      (h' : decode raw' = .ok (.terminal (.literal text))) : SameTerminal raw raw'
  | charClass {cls cls' : CharClass} (h : decode raw = .ok (.terminal (.charClass cls)))
      (h' : decode raw' = .ok (.terminal (.charClass cls'))) (hbody : body raw = body raw') :
      SameTerminal raw raw'

/-- A place of one spelling and a place of another one are those of the same character in literals,
    or the spellings are those of classes with the same body. -/
inductive SameCharacter (raw : String) (i : Nat) (raw' : String) (j : Nat) : Prop where
  | literal {text text' : List Char} {c : Char} (h : decode raw = .ok (.terminal (.literal text)))
      (h' : decode raw' = .ok (.terminal (.literal text'))) (hc : text[i]? = some c)
      (hc' : text'[j]? = some c) : SameCharacter raw i raw' j
  | charClass {cls cls' : CharClass} (h : decode raw = .ok (.terminal (.charClass cls)))
      (h' : decode raw' = .ok (.terminal (.charClass cls'))) (hbody : body raw = body raw') :
      SameCharacter raw i raw' j

/-- A class is what its body is read as. -/
theorem parse_body (h : decode raw = .ok (.terminal (.charClass cls))) :
    CharClass.parse (body raw) = .ok cls := by
  rw [decode] at h
  split at h
  · obtain ⟨cls', hcls, heq⟩ := decodeClass_eq_ok h
    cases heq
    exact hcls
  · split at h
    · obtain ⟨text, -, -, heq⟩ := decodeLiteral_eq_ok h
      cases heq
    · split at h
      · obtain ⟨name, heq⟩ := decodeName_eq_ok h
        cases heq
      · split at h <;> cases h

theorem charClass_eq_iff (h : decode raw = .ok (.terminal (.charClass cls)))
    (h' : decode raw' = .ok (.terminal (.charClass cls'))) : cls = cls' ↔ body raw = body raw' := by
  have hparse := parse_body h
  have hparse' := parse_body h'
  constructor
  · rintro rfl
    exact CharClass.body_eq_of_parse hparse hparse'
  · intro hbody
    rw [hbody] at hparse
    exact Except.ok.inj (hparse.symm.trans hparse')

/-- Terminals with the same text or the same body are the same. -/
theorem sameTerminal_iff (h : decode raw = .ok (.terminal t))
    (h' : decode raw' = .ok (.terminal t')) : SameTerminal raw raw' ↔ t = t' := by
  constructor
  · rintro (⟨hl, hl'⟩ | ⟨hc, hc', hbody⟩)
    · cases hl.symm.trans h
      cases hl'.symm.trans h'
      rfl
    · cases hc.symm.trans h
      cases hc'.symm.trans h'
      rw [(charClass_eq_iff hc hc').mpr hbody]
  · rintro rfl
    cases t with
    | literal text => exact .literal h h'
    | charClass cls => exact .charClass h h' ((charClass_eq_iff h h').mp rfl)

/-- The characters at two places of terminals are the same if their classes are. -/
theorem sameCharacter_iff (h : decode raw = .ok (.terminal t))
    (h' : decode raw' = .ok (.terminal t')) (hcls : t.classes[i]? = some cls)
    (hcls' : t'.classes[j]? = some cls') : SameCharacter raw i raw' j ↔ cls = cls' := by
  constructor
  · rintro (⟨hl, hl', hc, hc'⟩ | ⟨hl, hl', hbody⟩)
    · cases hl.symm.trans h
      cases hl'.symm.trans h'
      rw [Terminal.getElem?_classes_literal, hc] at hcls
      rw [Terminal.getElem?_classes_literal, hc'] at hcls'
      exact Option.some.inj (hcls.symm.trans hcls')
    · cases hl.symm.trans h
      cases hl'.symm.trans h'
      rw [← Terminal.eq_of_getElem?_classes hcls, ← Terminal.eq_of_getElem?_classes hcls']
      exact (charClass_eq_iff h h').mpr hbody
  · rintro rfl
    -- A character in quotes is no class in brackets, so the terminals are of one kind.
    cases t with
    | literal text =>
      rw [Terminal.getElem?_classes_literal, Option.map_eq_some_iff] at hcls
      obtain ⟨c, hc, rfl⟩ := hcls
      cases t' with
      | literal text' =>
        rw [Terminal.getElem?_classes_literal, Option.map_eq_some_iff] at hcls'
        obtain ⟨c', hc', heq⟩ := hcls'
        obtain rfl := CharClass.single_injective heq
        exact .literal h h' hc hc'
      | charClass x =>
        obtain rfl := Terminal.eq_of_getElem?_classes hcls'
        exact absurd rfl (CharClass.spelling_single_ne (parse_body h'))
    | charClass x =>
      obtain rfl := Terminal.eq_of_getElem?_classes hcls
      cases t' with
      | literal text' =>
        rw [Terminal.getElem?_classes_literal, Option.map_eq_some_iff] at hcls'
        obtain ⟨c', -, rfl⟩ := hcls'
        exact absurd rfl (CharClass.spelling_single_ne (parse_body h))
      | charClass y =>
        obtain rfl := Terminal.eq_of_getElem?_classes hcls'
        exact .charClass h h' ((charClass_eq_iff h h').mp rfl)

end Element

/-! ### Characters by their spellings -/

namespace Draft

variable {o : Outline} {d d' : Draft} {s s' : SymbolId} {cls cls' : CharClass}

/-- All symbols of characters are found by their spellings. -/
def Catalogues (d : Draft) : Prop :=
  ∀ s x cls, d.symbols[s]? = some x → x.kind = .char cls → d.characters.lookup x.name = some s

theorem catalogues_ofOutline (o : Outline) : (Draft.ofOutline o).Catalogues := by
  intro s x cls hx hkind
  have hmem : x ∈ (Draft.ofOutline o).symbols.toList :=
    Array.mem_toList_iff.mpr (Array.mem_of_getElem? hx)
  have hplain : x.kind = .nonterminal ∨ x.kind = .lexical := by
    simp only [ofOutline, List.mem_append, List.mem_map] at hmem
    rcases hmem with ⟨e, -, rfl⟩ | ⟨e, -, rfl⟩
    · exact Or.inl rfl
    · exact Or.inr rfl
  rw [hkind] at hplain
  rcases hplain with h | h <;> cases h

/-- A symbol that is not that of a character needs no entry. -/
theorem Catalogues.push (hd : d.Catalogues) {x : Symbol} (hx : ∀ cls, x.kind ≠ .char cls)
    {symbol : Symbol} (h : (d.symbols.push x)[s]? = some symbol) (hkind : symbol.kind = .char cls) :
    d.characters.lookup symbol.name = some s := by
  rw [Array.getElem?_push] at h
  split at h
  · obtain rfl := Option.some.inj h
    exact absurd hkind (hx cls)
  · exact hd s symbol cls h hkind

/-- A new character is entered under its spelling, and all others are still found. -/
theorem Change.catalogues {refers : Prop} (h : d.Change refers d') (hd : d.Catalogues) : d'.Catalogues := by
  intro s x cls hx hkind
  cases h with
  | symbol name offset hother => exact hd.push hother hx hkind
  | @character y offset hnew =>
    simp only at hx ⊢
    rw [Array.getElem?_push] at hx
    split at hx
    next heq =>
      obtain rfl := Option.some.inj hx
      rw [List.lookup_cons_self, heq]
    -- The spelling had no entry, so that the new one hides none.
    next => exact lookup_cons_of_lookup hnew (hd s x cls hx hkind)
  | anonymous offset _ => exact hd.push (by simp) hx hkind
  | lexeme y =>
    simp only at hx
    rw [Array.getElem?_modify] at hx
    split at hx
    · obtain ⟨z, -, rfl⟩ := Option.map_eq_some_iff.mp hx
      cases hkind
    · exact hd s x cls hx hkind
  | rule level r => cases level <;> exact hd s x cls hx hkind
  | _ => exact hd s x cls hx hkind

/-- A character has one symbol. -/
theorem Catalogues.eq_of_isCharacter (hd : d.Catalogues) (hs : d.IsCharacter cls s)
    (hs' : d.IsCharacter cls s') : s = s' :=
  Option.some.inj ((hd s _ cls hs rfl).symm.trans (hd s' _ cls hs' rfl))

/-- A symbol is that of one character. -/
theorem IsCharacter.unique (h : d.IsCharacter cls s) (h' : d.IsCharacter cls' s) : cls = cls' := by
  have hkind := congrArg Symbol.kind (Option.some.inj (h.symm.trans h'))
  exact SymbolKind.char.inj hkind

/-- No name is the symbol of a character. -/
theorem Orderly.not_isName_of_isCharacter (hd : d.Orderly o) (hs : d.IsCharacter cls s) :
    ¬o.IsName s := by
  intro hname
  have hkind {x : Symbol} (hx : d.symbols[s]? = some x) : x.kind = .char cls :=
    congrArg Symbol.kind (Option.some.inj (hx.symm.trans hs))
  by_cases hlt : s < o.structural.length
  · cases hkind (hd.structuralName s _ (List.getElem?_eq_getElem hlt))
  · obtain ⟨i, rfl⟩ := Nat.exists_eq_add_of_le (Nat.le_of_not_lt hlt)
    have hi : i < o.lexical.length := Nat.lt_of_add_lt_add_left hname
    obtain ⟨k, hsymbol, hk⟩ := hd.lexicalName i _ (List.getElem?_eq_getElem hi)
    rcases hk with rfl | rfl <;> cases hkind hsymbol

end Draft

/-- The symbols of all characters of statements are found by their spellings. -/
theorem Drafted.catalogues {ss : List Statement} {g : Grammar} {o : Outline} {d : Draft}
    (h : Drafted ss g o d) : d.Catalogues :=
  (Drafting.statements_changes o ss).invariant (fun _ _ => Draft.Change.catalogues) h.draft
    (Draft.catalogues_ofOutline o)

/-! ### Symbols of terminals -/

/-- An element of a lexical rule that is a terminal has the symbols of its characters. -/
theorem Draft.BodyFor.forall₂ {o : Outline} {d : Draft} {raw : String} {t : Terminal}
    {body : List SymbolId} (hbody : d.BodyFor o raw body)
    (hraw : Element.decode raw = .ok (.terminal t)) :
    List.Forall₂ d.IsCharacter t.classes body := by
  obtain ⟨e, he, hbody⟩ := hbody
  cases he.symm.trans hraw
  cases hbody with
  | terminal hclasses => exact hclasses

/-- An item without a quantifier has the symbols of its element. -/
theorem Draft.Part.bodyFor {o : Outline} {d : Draft} {item : RhsItem} {body : List SymbolId}
    (h : d.Part o item body) (hq : item.quantifier = .one) : d.BodyFor o item.element body := by
  cases h with
  | one _ hbody => exact hbody
  | repeated hother => exact absurd hq hother

namespace Lowered

variable {ss : List Statement} {g : Grammar} {o : Outline} {d : Draft} {raw raw' : String}
  {t t' : Terminal} {s s' : SymbolId} {body body' : List SymbolId} {i j : Nat}

/-- Elements share a lexeme if they are the same terminal, and only then. -/
theorem standsFor_eq_iff (h : Lowered ss g o d) (hraw : Element.decode raw = .ok (.terminal t))
    (hraw' : Element.decode raw' = .ok (.terminal t')) (hs : d.StandsFor o raw s)
    (hs' : d.StandsFor o raw' s') : s = s' ↔ Element.SameTerminal raw raw' := by
  rw [Element.sameTerminal_iff hraw hraw']
  constructor
  · rintro rfl
    have hsymbol := (h.isTerminal hs hraw).1.symm.trans (h.isTerminal hs' hraw').1
    have hspelling : t.spelling = t'.spelling := congrArg Symbol.name (Option.some.inj hsymbol)
    exact Terminal.Written.eq_of_spelling ⟨raw, hraw⟩ ⟨raw', hraw'⟩ hspelling
  · rintro rfl
    exact Option.some.inj ((hs.lookup hraw).symm.trans (hs'.lookup hraw'))

/-- A character of an element has the symbol of its class. -/
theorem exists_isCharacter (hraw : Element.decode raw = .ok (.terminal t))
    (hbody : d.BodyFor o raw body) (hs : body[i]? = some s) :
    ∃ cls, t.classes[i]? = some cls ∧ d.IsCharacter cls s := by
  have hclasses := hbody.forall₂ hraw
  obtain ⟨hlt, rfl⟩ := List.getElem?_eq_some_iff.mp hs
  have hlt' : i < t.classes.length := hclasses.length_eq.symm ▸ hlt
  exact ⟨t.classes[i], List.getElem?_eq_getElem hlt', hclasses.get hlt' hlt⟩

/-- Characters share a symbol if they are the same, and only then. -/
theorem body_eq_iff (h : Lowered ss g o d) (hraw : Element.decode raw = .ok (.terminal t))
    (hraw' : Element.decode raw' = .ok (.terminal t')) (hbody : d.BodyFor o raw body)
    (hbody' : d.BodyFor o raw' body') (hs : body[i]? = some s) (hs' : body'[j]? = some s') :
    s = s' ↔ Element.SameCharacter raw i raw' j := by
  obtain ⟨cls, hcls, hchar⟩ := exists_isCharacter hraw hbody hs
  obtain ⟨cls', hcls', hchar'⟩ := exists_isCharacter hraw' hbody' hs'
  rw [Element.sameCharacter_iff hraw hraw' hcls hcls']
  constructor
  · rintro rfl
    exact hchar.unique hchar'
  · rintro rfl
    exact h.drafted.catalogues.eq_of_isCharacter hchar hchar'

end Lowered

/-- The terminals of accepted statements share symbols exactly when they are the same. What a
    structural statement leaves, what is discarded and what the rules of lexical names consist of
    have, in the place of every element, the symbol or the symbols that stand for it. If the
    element is a terminal among lexemes, its symbol is a lexeme that is no name and whose only
    rule has the characters of the terminal, and another such element has the same symbol if and
    only if it is the same terminal. A character of a terminal in a lexical rule has a symbol that
    is no name either, and another one has the same symbol if and only if it is the same. -/
theorem terminals_shared {ss : List Statement} {description : String} {g : Grammar}
    (h : Grammar.ofStatements ss description = .ok g) :
    ∃ o d, Lowered ss g o d ∧
      (∀ before spelling tiers offset after,
        ss = before ++ .structural spelling tiers offset :: after →
          ∃ f : Footprint, f.LeftBy before after spelling tiers g o d) ∧
      (∀ element offset, .discard element offset ∈ ss →
        ∃ s ∈ g.discards, d.StandsFor o element s) ∧
      (∀ name s, o.lexicalId? name = some s →
        List.Forall₂ (d.AlternativeRule o) (lexicalAlternatives ss name)
          (d.rulesOf .lexical s)) ∧
      (∀ raw t s, Element.decode raw = .ok (.terminal t) → d.StandsFor o raw s →
        (∃ body, d.BodyFor o raw body ∧
          d.rulesOf .lexical s = [Draft.terminalRule t s body]) ∧
        (∀ name x, o.structuralId? name = some x ∨ o.lexicalId? name = some x → s ≠ x) ∧
        ∀ raw' t' s', Element.decode raw' = .ok (.terminal t') → d.StandsFor o raw' s' →
          (s = s' ↔ Element.SameTerminal raw raw')) ∧
      ∀ raw t body i s, Element.decode raw = .ok (.terminal t) → d.BodyFor o raw body →
        body[i]? = some s →
        (∀ name x, o.structuralId? name = some x ∨ o.lexicalId? name = some x → s ≠ x) ∧
        ∀ raw' t' body' j s', Element.decode raw' = .ok (.terminal t') → d.BodyFor o raw' body' →
          body'[j]? = some s' → (s = s' ↔ Element.SameCharacter raw i raw' j) := by
  obtain ⟨o, d, hlowered⟩ := Lowered.exists_of_ofStatements h
  have hnamed {name : String} {x : SymbolId}
      (hx : o.structuralId? name = some x ∨ o.lexicalId? name = some x) : o.IsName x :=
    hx.elim Outline.isName_of_structuralId? Outline.isName_of_lexicalId?
  refine ⟨o, d, hlowered, fun before spelling tiers offset after hss => ?_,
    fun element offset => hlowered.discards, fun name s => hlowered.drafted.lexical,
    fun raw t s hraw hs => ?_, fun raw t body i s hraw hbody hs => ?_⟩
  · obtain ⟨f, hf, -⟩ := hlowered.exists_footprint hss
    exact ⟨f, hf⟩
  · obtain ⟨hname, -, body, hbody, hrules⟩ :=
      hlowered.orderly.isTerminal ⟨raw, hraw⟩ (hs.lookup hraw)
    refine ⟨⟨body, ⟨_, hraw, .terminal hbody⟩, hrules⟩, fun name x hx heq => ?_,
      fun raw' t' s' hraw' => hlowered.standsFor_eq_iff hraw hraw' hs⟩
    exact hname (heq ▸ hnamed hx)
  · obtain ⟨cls, -, hchar⟩ := Lowered.exists_isCharacter hraw hbody hs
    refine ⟨fun name x hx heq => ?_, fun raw' t' body' j s' hraw' hbody' hs' =>
      hlowered.body_eq_iff hraw hraw' hbody hbody' hs hs'⟩
    exact hlowered.orderly.not_isName_of_isCharacter hchar (heq ▸ hnamed hx)

/-- A letter in quotes of both kinds and as a class, and a name that is spelled like it. -/
def Statement.quotations : List Statement :=
  [.rule "text" ["'a'", "\"a\"", "[a]", "<'a'>"], .lexeme "<'a'>" ["'aa'", "[a]"]]

/-- The letter has one lexeme in quotes of both kinds, another one as a class, and neither is the
    symbol of the name. In the rule of the name, it has one symbol in both places of the literal
    and another one as a class. -/
theorem terminals_shared_quotations :
    ∃ g o d single double cls named c k r,
      Grammar.ofStatements Statement.quotations "quotations" = .ok g ∧
      Lowered Statement.quotations g o d ∧ d.StandsFor o "'a'" single ∧
      d.StandsFor o "\"a\"" double ∧ d.StandsFor o "[a]" cls ∧ d.StandsFor o "<'a'>" named ∧
      single = double ∧ single ≠ cls ∧ single ≠ named ∧ cls ≠ named ∧
      d.rulesOf .lexical named = [r] ∧ r.rhs = [c, c, k] ∧ c ≠ k := by
  have hsingle : Element.decode "'a'" = .ok (.terminal (.literal ['a'])) := by decide +kernel
  have hdouble : Element.decode "\"a\"" = .ok (.terminal (.literal ['a'])) := by decide +kernel
  have htwice : Element.decode "'aa'" = .ok (.terminal (.literal ['a', 'a'])) := by decide +kernel
  have hclass : Element.decode "[a]" =
      .ok (.terminal (.charClass ⟨false, [.char 'a'], "[a]"⟩)) := by
    decide +kernel
  have hbracketed : Element.decode "<'a'>" = .ok (.name "'a'") := by decide +kernel
  have htest : (Grammar.ofStatements Statement.quotations "quotations").toOption.any
      (fun _ => true) = true := by
    decide +kernel
  obtain ⟨g, hg, -⟩ := exists_eq_ok_of_any htest
  obtain ⟨o, d, h, hstructural, -, hlexical, hlexemes, hcharacters⟩ := terminals_shared hg
  have hnames : (Outline.ofStatements Statement.quotations).toOption.any (fun o =>
      o.structuralId? "'a'" == none && o.lexicalId? "'a'" == some 1) = true := by
    decide +kernel
  obtain ⟨o', ho', hnames⟩ := exists_eq_ok_of_any hnames
  obtain rfl := Except.ok.inj (h.outline.symm.trans ho')
  rw [Bool.and_eq_true, beq_iff_eq, beq_iff_eq] at hnames
  obtain ⟨hnone, hname⟩ := hnames
  -- The symbols of the structural rule.
  have hlexeme {raw : String} {t : Terminal}
      (hraw : raw ∈ (Alternative.ofItems ["'a'", "\"a\"", "[a]", "<'a'>"]).rhs.map (·.element))
      (ht : Element.decode raw = .ok (.terminal t)) : ∃ s, d.StandsFor o raw s := by
    obtain ⟨f, hf⟩ := hstructural [] "text" _ 0 _ rfl
    obtain ⟨s, hs, -⟩ :=
      hf.lowers.exists_standsFor List.mem_cons_self (List.mem_append_left _ hraw) ht
    exact ⟨s, hs⟩
  obtain ⟨single, hs⟩ := hlexeme (by decide +kernel) hsingle
  obtain ⟨double, hs'⟩ := hlexeme (by decide +kernel) hdouble
  obtain ⟨cls, hx⟩ := hlexeme (by decide +kernel) hclass
  obtain ⟨-, hunnamed, hsame⟩ := hlexemes _ _ _ hsingle hs
  obtain ⟨-, hunnamed', -⟩ := hlexemes _ _ _ hclass hx
  have hne : ¬Element.SameTerminal "'a'" "[a]" := by
    rw [Element.sameTerminal_iff hsingle hclass]
    simp
  -- The symbols of the lexical rule.
  have hrules := hlexical "'a'" 1 hname
  have halternatives : lexicalAlternatives Statement.quotations "'a'" =
      [⟨[⟨"'aa'", .one, 0⟩, ⟨"[a]", .one, 0⟩], [], 0⟩] := by
    decide +kernel
  rw [halternatives] at hrules
  generalize hr : d.rulesOf .lexical 1 = rules at hrules
  obtain _ | ⟨⟨parts, hparts, hrhs⟩, _ | _⟩ := hrules
  obtain _ | ⟨hbody, _ | ⟨hbody', _ | _⟩⟩ := hparts
  replace hbody := hbody.bodyFor rfl
  replace hbody' := hbody'.bodyFor rfl
  obtain ⟨c, c', rfl⟩ := List.length_eq_two.mp (hbody.forall₂ htwice).length_eq.symm
  obtain ⟨k, rfl⟩ := List.length_eq_one_iff.mp (hbody'.forall₂ hclass).length_eq.symm
  obtain ⟨-, hshared⟩ := hcharacters _ _ _ 0 c htwice hbody rfl
  obtain rfl := (hshared _ _ _ 1 c' htwice hbody rfl).mpr (.literal htwice htwice rfl rfl)
  refine ⟨g, o, d, single, double, cls, 1, c, k, _, hg, h, hs, hs', hx,
    ⟨_, hbracketed, .lexical hnone hname⟩,
    (hsame _ _ _ hdouble hs').mpr (.literal hsingle hdouble),
    fun heq => hne ((hsame _ _ _ hclass hx).mp heq), hunnamed _ _ (Or.inr hname),
    hunnamed' _ _ (Or.inr hname), hr, hrhs, fun heq => ?_⟩
  have hcharacter := (hshared _ _ _ 0 k hclass hbody' rfl).mp heq
  rw [Element.sameCharacter_iff htwice hclass rfl rfl] at hcharacter
  exact absurd hcharacter (by decide +kernel)

end Scannerless
