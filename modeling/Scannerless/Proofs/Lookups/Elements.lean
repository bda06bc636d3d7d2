import Mathlib.Data.List.Nodup
import Scannerless.Proofs.Grammar.Outlines
import Scannerless.Proofs.Lookups.Drafts

/-!
# What elements and rules look up is there

Names that have rules are in the table of names, and the symbols of a rule are there when the rule
is added.

## Main statements

- `Outline.resolves_of_ofStatements` — names have the symbols that they are looked up for.
- `Checked.addRule_finds`, `Checked.addDeclared_finds` — rules.
- `Checked.structuralSymbol_finds`, `Checked.discard_finds` — the symbols of elements.
-/

namespace Scannerless

/-! ### Names -/

namespace Outline

variable {o : Outline} {ss : List Statement}

theorem lookup_zipIdx_reverse {names : List String} (h : names.Nodup) {name : String} {i : Nat}
    (hi : names[i]? = some name) : names.zipIdx.reverse.lookup name = some i := by
  have hmem : (name, i) ∈ names.zipIdx.reverse := by
    rw [List.mem_reverse, List.mem_zipIdx_iff_getElem?]
    exact hi
  have hkeys : (names.zipIdx.reverse.map Prod.fst).Nodup := by
    rw [List.map_reverse, List.nodup_reverse, List.zipIdx_map_fst]
    exact h
  obtain ⟨front, back, hsplit⟩ := List.append_of_mem hmem
  rw [List.lookup_eq_some_iff]
  refine ⟨front, back, hsplit, fun e he => ?_⟩
  rw [hsplit, List.map_append, List.nodup_append] at hkeys
  have hne := hkeys.2.2 e.1 (List.mem_map_of_mem he) name (by simp)
  simpa using hne.symm

theorem nodup_names (h : ofStatements ss = .ok o) :
    ((o.structural ++ o.lexical).map (·.1)).Nodup := by
  obtain ⟨hstructural, hlexical⟩ := distinctNames_of_ofStatements h
  rw [List.map_append, List.nodup_append]
  refine ⟨hstructural, hlexical, ?_⟩
  -- A name with lexical rules has no structural ones.
  rintro _ hs _ hl rfl
  obtain ⟨e, he, hname⟩ := List.mem_map.mp hs
  obtain ⟨e', he', hname'⟩ := List.mem_map.mp hl
  have hboth : o.isStructural e'.1 = true :=
    List.any_eq_true.mpr ⟨e, he, beq_iff_eq.mpr (hname.trans hname'.symm)⟩
  have hlevel := (ofStatements_eq_ok h).2
  rw [requireOneLevel] at hlevel
  split at hlevel
  · cases hlevel
  next hnone =>
    rw [List.find?_eq_none] at hnone
    exact hnone e' he' hboth

/-- Names have the symbols that they are looked up for. -/
theorem resolves_of_ofStatements (h : ofStatements ss = .ok o) : o.Resolves := by
  have hnodup := nodup_names h
  refine ⟨fun name s hs => lookup_zipIdx_reverse hnodup ?_,
    fun name s hs => lookup_zipIdx_reverse hnodup ?_⟩
  · obtain ⟨offset, hs⟩ := structuralId?_eq_some hs
    obtain ⟨hlt, -⟩ := List.getElem?_eq_some_iff.mp hs
    rw [List.getElem?_map, List.getElem?_append_left hlt, hs]
    rfl
  · obtain ⟨i, offset, hi, rfl⟩ := lexicalId?_eq_some hs
    rw [List.getElem?_map, List.getElem?_append_right (Nat.le_add_right _ _),
      Nat.add_sub_cancel_left, hi]
    rfl

end Outline

namespace Checked

open Draft

variable {o : Outline} {d : Draft} {β : Type} {good : β → Draft → Prop}

/-- A result that is a symbol of the draft behind a step. -/
abbrev IsSymbol (s : SymbolId) (d : Draft) : Prop :=
  s < d.symbols.size

/-! ### Rules -/

theorem addRule_finds (hd : d.Sound o) (level : Level) {r : Rule} (hr : r.Below d.symbols.size) :
    d.Finds o (addRule level r) (Drafting.addRule level r) fun _ _ => True := by
  rw [addRule]
  refine finds_nameOf_bind hr.1 (finds_namesOf_bind hr.2 ?_)
  refine finds_ofDrafting fun _ d' hrun => ?_
  obtain rfl := Drafting.run_modify.mp hrun
  have hpush {rules : Array Rule} (hrules : ∀ r ∈ rules.toList, r.Below d.symbols.size) :
      ∀ r' ∈ (rules.push r).toList, r'.Below d.symbols.size := by
    intro r' hr'
    rw [Array.toList_push, List.mem_append, List.mem_singleton] at hr'
    rcases hr' with hr' | rfl
    · exact hrules r' hr'
    · exact hr
  cases level with
  | structural =>
    exact ⟨{ hd with structural := hpush hd.structural }, Nat.le_refl _, trivial⟩
  | lexical =>
    exact ⟨{ hd with lexical := hpush hd.lexical }, Nat.le_refl _, trivial⟩

theorem addPlain_finds (hd : d.Sound o) (level : Level) {lhs : SymbolId} {rhs : List SymbolId}
    (hlhs : lhs < d.symbols.size) (hrhs : ∀ s ∈ rhs, s < d.symbols.size) (name : String)
    (semantics : Semantics) (rank : Int) :
    d.Finds o (addPlain level lhs rhs name semantics rank)
      (Drafting.addPlain level lhs rhs name semantics rank) fun _ _ => True :=
  addRule_finds hd level ⟨hlhs, hrhs⟩

theorem addDeclared_finds (hd : d.Sound o) (level : Level) {lhs : SymbolId} {rhs : List SymbolId}
    (hlhs : lhs < d.symbols.size) (hrhs : ∀ s ∈ rhs, s < d.symbols.size) (name : String)
    (semantics : Semantics) (rank : Int) (offset : Nat) :
    d.Finds o (addDeclared level lhs rhs name semantics rank offset)
      (Drafting.addDeclared level lhs rhs name semantics rank offset) fun _ _ => True := by
  rw [addDeclared, Drafting.addDeclared]
  refine finds_get_bind ?_
  split
  · exact finds_nameOf_bind hlhs (finds_namesOf_bind hrhs (finds_throw _ _))
  · have hnoted : d.Finds o (set { d with declared := (level, lhs, rhs) :: d.declared })
        (set { d with declared := (level, lhs, rhs) :: d.declared }) _ :=
      finds_set { hd with } (Nat.le_refl _)
    refine hnoted.bind fun _ d' hd' hle _ => ?_
    exact addPlain_finds hd' level (Nat.lt_of_lt_of_le hlhs hle)
      (fun s hs => Nat.lt_of_lt_of_le (hrhs s hs) hle) name semantics rank

/-! ### Symbols of elements -/

/-- A new symbol gets an offset and leaves what the draft speaks of among its symbols. -/
theorem addSymbol_finds (hd : d.Sound o) (name : String) (kind : SymbolKind) (offset : Nat) :
    d.Finds o (addSymbol name kind offset) (Drafting.addSymbol name kind offset) IsSymbol := by
  refine finds_ofDrafting fun s d' hrun => ?_
  obtain ⟨rfl, rfl⟩ := Prod.mk.inj (Except.ok.inj hrun)
  have hle : d.symbols.size ≤ (d.symbols.push ⟨name, kind⟩).size := by simp
  have hlt {s : Nat} (hs : s < d.symbols.size) : s < (d.symbols.push ⟨name, kind⟩).size :=
    Nat.lt_of_lt_of_le hs hle
  refine ⟨?_, hle, by simp [IsSymbol]⟩
  exact {
    offsets := by simp [hd.offsets]
    names := Nat.le_trans hd.names hle
    anonymous := fun e he => hlt (hd.anonymous e he)
    characters := fun e he => hlt (hd.characters e he)
    lexemes := fun s hs => hlt (hd.lexemes s hs)
    discards := fun s hs => hlt (hd.discards s hs)
    references := fun e he => (hd.references e he).imp hlt hlt
    structural := fun r hr => (hd.structural r hr).mono hle
    lexical := fun r hr => (hd.lexical r hr).mono hle }

theorem lt_of_lookup {entries : List (String × SymbolId)} {n : Nat} (h : ∀ e ∈ entries, e.2 < n)
    {name : String} {s : SymbolId} (hs : entries.lookup name = some s) : s < n := by
  obtain ⟨front, back, rfl, -⟩ := List.lookup_eq_some_iff.mp hs
  exact h (name, s) (by simp)

theorem characterSymbol_finds (hd : d.Sound o) (cls : CharClass) (offset : Nat) :
    d.Finds o (characterSymbol cls offset) (Drafting.characterSymbol cls offset) IsSymbol := by
  rw [characterSymbol, Drafting.characterSymbol]
  refine finds_get_bind ?_
  cases hid : d.characters.lookup cls.spelling with
  | some id => exact finds_pure hd (lt_of_lookup hd.characters hid)
  | none =>
    refine (addSymbol_finds hd _ _ _).bind fun id d' hd' hle hid => ?_
    have hnoted : d'.Finds o
        (modify fun d => { d with characters := (cls.spelling, id) :: d.characters })
        (modify fun d => { d with characters := (cls.spelling, id) :: d.characters }) _ :=
      finds_modify rfl { hd' with characters := List.forall_mem_cons.mpr ⟨hid, hd'.characters⟩ }
        (Nat.le_refl _)
    exact hnoted.bind fun _ d'' hd'' hle' _ => finds_pure hd'' (Nat.lt_of_lt_of_le hid hle')

theorem characterSymbols_finds (hd : d.Sound o) (t : Terminal) (offset : Nat) :
    d.Finds o (characterSymbols t offset) (Drafting.characterSymbols t offset)
      fun ss d' => ∀ s ∈ ss, s < d'.symbols.size :=
  have hall : d.Finds o (t.classes.mapM fun cls => characterSymbol cls offset)
      (t.classes.mapM fun cls => Drafting.characterSymbol cls offset)
      fun ss d' => ss.length = t.classes.length ∧ ∀ s ∈ ss, s < d'.symbols.size :=
    finds_mapM hd (fun _ _ _ hle hs => Nat.lt_of_lt_of_le hs hle)
      fun cls _ _ hd' _ => characterSymbol_finds hd' cls offset
  hall.mono fun _ _ h => h.2

theorem anonymousLexeme_finds (hd : d.Sound o) (t : Terminal) (offset : Nat) :
    d.Finds o (anonymousLexeme t offset) (Drafting.anonymousLexeme t offset) IsSymbol := by
  rw [anonymousLexeme, Drafting.anonymousLexeme]
  refine finds_get_bind ?_
  cases hid : d.anonymous.lookup t.spelling with
  | some id => exact finds_pure hd (lt_of_lookup hd.anonymous hid)
  | none =>
    refine (addSymbol_finds hd _ _ _).bind fun id d' hd' hle hid => ?_
    have hnoted : d'.Finds o
        (modify fun d => { d with anonymous := (t.spelling, id) :: d.anonymous })
        (modify fun d => { d with anonymous := (t.spelling, id) :: d.anonymous }) _ :=
      finds_modify rfl { hd' with anonymous := List.forall_mem_cons.mpr ⟨hid, hd'.anonymous⟩ }
        (Nat.le_refl _)
    refine hnoted.bind fun _ d₂ hd₂ hle₂ _ => ?_
    refine (characterSymbols_finds hd₂ t offset).bind fun rhs d₃ hd₃ hle₃ hrhs => ?_
    have hid₃ : id < d₃.symbols.size := Nat.lt_of_lt_of_le hid (Nat.le_trans hle₂ hle₃)
    refine (addPlain_finds hd₃ .lexical hid₃ hrhs _ _ _).bind fun _ d₄ hd₄ hle₄ _ => ?_
    exact finds_pure hd₄ (Nat.lt_of_lt_of_le hid₃ hle₄)

theorem setIfInBounds_eq_modify {α : Type} {xs : Array α} {i : Nat} (hi : i < xs.size)
    (f : α → α) : xs.setIfInBounds i (f xs[i]) = xs.modify i f := by
  refine Array.ext (by simp) fun j hj _ => ?_
  rw [Array.getElem_modify, Array.getElem_setIfInBounds (by simpa using hj)]
  split
  next h => subst h; rfl
  next => rfl

/-- A symbol keeps its place when it becomes a lexeme. -/
theorem sound_withKind (hd : d.Sound o) (id : SymbolId) (kind : SymbolKind) :
    Sound o { d with symbols := d.symbols.modify id fun s => { s with kind := kind } } := by
  have hsize : (d.symbols.modify id fun s => { s with kind := kind }).size = d.symbols.size :=
    Array.size_modify
  constructor
  all_goals
    simp only [hsize]
  exacts [hd.offsets, hd.names, hd.anonymous, hd.characters, hd.lexemes, hd.discards,
    hd.references, hd.structural, hd.lexical]

theorem namedLexeme_finds (ho : o.Resolves) (hd : d.Sound o) (name : String) (offset : Nat) :
    d.Finds o (namedLexeme o name offset) (Drafting.namedLexeme o name offset) IsSymbol := by
  rw [namedLexeme, Drafting.namedLexeme]
  cases hid : o.lexicalId? name with
  | none =>
    rw [if_neg (by simp [Outline.isLexical_iff, hid])]
    exact finds_throw _ _
  | some id =>
    rw [if_pos (Outline.isLexical_iff.mpr ⟨id, hid⟩)]
    have hlt : id < d.symbols.size := Nat.lt_of_lt_of_le (Outline.isName_of_lexicalId? hid) hd.names
    refine finds_found_bind (ho.lexical name id hid) (finds_symbolAt_bind hlt ?_)
    have hchanged (symbol : Symbol) (hsymbol : symbol = d.symbols[id]) : d.Finds o
        (modify fun d =>
          { d with symbols := d.symbols.setIfInBounds id { symbol with kind := .lexeme } })
        (modify fun d =>
          { d with symbols := d.symbols.modify id fun s => { s with kind := .lexeme } })
        fun _ _ => True := by
      refine (finds_modify ?_ (sound_withKind hd id .lexeme) (by simp)).mono fun _ _ _ => trivial
      rw [hsymbol, setIfInBounds_eq_modify hlt fun s => { s with kind := .lexeme }]
    exact (hchanged _ rfl).bind fun _ d' hd' hle _ => finds_pure hd' (Nat.lt_of_lt_of_le hlt hle)

theorem useLexeme_finds (hd : d.Sound o) {s : SymbolId} (hs : s < d.symbols.size) :
    d.Finds o (useLexeme s) (Drafting.useLexeme s) IsSymbol := by
  have hlexemes : ∀ x ∈ insertLast d.lexemes s, x < d.symbols.size := by
    intro x hx
    rcases mem_insertLast.mp hx with hx | rfl
    · exact hd.lexemes x hx
    · exact hs
  have hnoted : d.Finds o (modify fun d => { d with lexemes := insertLast d.lexemes s })
      (modify fun d => { d with lexemes := insertLast d.lexemes s }) _ :=
    finds_modify rfl { hd with lexemes := hlexemes } (Nat.le_refl _)
  exact hnoted.bind fun _ d' hd' hle _ => finds_pure hd' (Nat.lt_of_lt_of_le hs hle)

theorem structuralSymbol_finds (ho : o.Resolves) (hd : d.Sound o) (raw : String) (offset : Nat) :
    d.Finds o (structuralSymbol o raw offset) (Drafting.structuralSymbol o raw offset)
      IsSymbol := by
  rw [structuralSymbol, Drafting.structuralSymbol]
  refine (finds_read hd _).bind fun element d' hd' hle _ => ?_
  cases element with
  | terminal t =>
    exact (anonymousLexeme_finds hd' t offset).bind fun s d'' hd'' _ hs => useLexeme_finds hd'' hs
  | name name =>
    cases hid : o.structuralId? name with
    | none =>
      simp only [hid]
      rw [if_neg (by simp [Outline.isStructural_iff, hid])]
      exact (namedLexeme_finds ho hd' name offset).bind fun s d'' hd'' _ hs =>
        useLexeme_finds hd'' hs
    | some id =>
      simp only [hid]
      rw [if_pos (Outline.isStructural_iff.mpr ⟨id, hid⟩), idOf, ← bind_pure (found _)]
      refine finds_found_bind (ho.structural name id hid) (finds_pure hd' ?_)
      exact Nat.lt_of_lt_of_le (Outline.isName_of_structuralId? hid) hd'.names

theorem structuralSymbols_finds (ho : o.Resolves) (hd : d.Sound o) (items : List RhsItem) :
    d.Finds o (structuralSymbols o items) (Drafting.structuralSymbols o items)
      fun ss d' => ss.length = items.length ∧ ∀ s ∈ ss, s < d'.symbols.size :=
  finds_mapM hd (fun _ _ _ hle hs => Nat.lt_of_lt_of_le hs hle)
    fun item _ _ hd' _ => structuralSymbol_finds ho hd' item.element item.offset

theorem discard_finds (ho : o.Resolves) (hd : d.Sound o) (raw : String) (offset : Nat) :
    d.Finds o (discard o raw offset) (Drafting.discard o raw offset) fun _ _ => True := by
  rw [discard, Drafting.discard]
  have hsymbol : d.Finds o (discardSymbol o raw offset) (Drafting.discardSymbol o raw offset)
      IsSymbol := by
    rw [discardSymbol, Drafting.discardSymbol]
    refine (finds_read hd _).bind fun element d' hd' hle _ => ?_
    cases element with
    | terminal t => exact anonymousLexeme_finds hd' t offset
    | name name =>
      simp only
      split
      · exact finds_throw _ _
      · exact namedLexeme_finds ho hd' name offset
  refine hsymbol.bind fun s d' hd' _ hs => ?_
  have hdiscards : ∀ x ∈ insertLast d'.discards s, x < d'.symbols.size := by
    intro x hx
    rcases mem_insertLast.mp hx with hx | rfl
    · exact hd'.discards x hx
    · exact hs
  exact (finds_modify rfl { hd' with discards := hdiscards } (Nat.le_refl _)).mono
    fun _ _ _ => trivial

end Checked

end Scannerless
