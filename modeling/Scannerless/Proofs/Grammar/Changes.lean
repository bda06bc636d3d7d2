import Mathlib.Logic.Relation
import Scannerless.Proofs.Grammar.Lowering

/-!
# Elementary changes of a draft

However statements are read, a draft changes in a few ways only: it gets a symbol, a character
or a lexeme that it has not had, a name becomes a lexeme, a rule is added, or it is noted what is
declared, used, discarded or referred to. The passes over the statements are sequences of such
changes, so that what each of them keeps is kept by all passes.

## Main definitions

- `Draft.Change` — an elementary change.
- `Drafting.Changes` — a step that consists of elementary changes.

## Main statements

- `Drafting.statements_changes` — the passes over the statements.
- `Drafting.Changes.invariant` — what every elementary change keeps.
-/

namespace Scannerless

/-- An elementary change of a draft. Characters and terminals get a symbol if their spelling has
    none, and a rule that an author writes is declared once. Whether references are noted, too, is
    told by `refers`. -/
inductive Draft.Change (refers : Prop) : Draft → Draft → Prop where
  | symbol {d : Draft} (name : String) {kind : SymbolKind} (offset : Nat)
      (hkind : ∀ cls, kind ≠ .char cls) :
      Change refers d { d with
        symbols := d.symbols.push ⟨name, kind⟩
        offsets := d.offsets.push offset }
  | character {d : Draft} {cls : CharClass} (offset : Nat)
      (hnew : d.characters.lookup cls.spelling = none) :
      Change refers d { d with
        symbols := d.symbols.push ⟨cls.spelling, .char cls⟩
        offsets := d.offsets.push offset
        characters := (cls.spelling, d.symbols.size) :: d.characters }
  | anonymous {d : Draft} {t : Terminal} (offset : Nat)
      (hnew : d.anonymous.lookup t.spelling = none) :
      Change refers d { d with
        symbols := d.symbols.push ⟨t.spelling, .lexeme⟩
        offsets := d.offsets.push offset
        anonymous := (t.spelling, d.symbols.size) :: d.anonymous }
  | lexeme {d : Draft} (s : SymbolId) :
      Change refers d { d with symbols := d.symbols.modify s fun x => { x with kind := .lexeme } }
  | rule {d : Draft} (level : Level) (r : Rule) :
      Change refers d (level.pick { d with structural := d.structural.push r }
        { d with lexical := d.lexical.push r })
  | declared {d : Draft} (level : Level) (lhs : SymbolId) (rhs : List SymbolId)
      (hnew : (level, lhs, rhs) ∉ d.declared) :
      Change refers d { d with declared := (level, lhs, rhs) :: d.declared }
  | used {d : Draft} (s : SymbolId) :
      Change refers d { d with lexemes := insertLast d.lexemes s }
  | discarded {d : Draft} (s : SymbolId) :
      Change refers d { d with discards := insertLast d.discards s }
  | referred {d : Draft} (h : refers) (s s' : SymbolId) :
      Change refers d { d with references := d.references ++ [(s, s')] }

namespace Drafting

variable {refers : Prop} {o : Outline} {α β : Type} {d d' : Draft}

/-- A step consists of elementary changes. -/
def Changes (m : Drafting α) (refers : Prop) : Prop :=
  ∀ d a d', m.run d = .ok (a, d') → Relation.ReflTransGen (Draft.Change refers) d d'

/-- What every elementary change keeps is kept by a step that consists of them. -/
theorem Changes.invariant {m : Drafting α} {P : Draft → Prop} (hm : m.Changes refers)
    (hP : ∀ d d', Draft.Change refers d d' → P d → P d') {a : α} (h : m.run d = .ok (a, d'))
    (hd : P d) : P d' := by
  have hchanges := hm d a d' h
  clear h
  induction hchanges with
  | refl => exact hd
  | tail _ hchange ih => exact hP _ _ hchange ih

/-! ### Steps one after the other -/

theorem Changes.bind {m : Drafting α} {f : α → Drafting β} (hm : m.Changes refers)
    (hf : ∀ a, (f a).Changes refers) : (m >>= f).Changes refers := by
  intro d b d' hrun
  obtain ⟨a, e, hrun, hrun'⟩ := run_bind.mp hrun
  exact (hm d a e hrun).trans (hf a e b d' hrun')

theorem pure_changes (a : α) : (pure a : Drafting α).Changes refers := by
  intro d a' d' hrun
  obtain ⟨-, rfl⟩ := run_pure.mp hrun
  exact .refl

theorem refuse_changes (cause : Cause) (offset : Nat) :
    (refuse cause offset : Drafting α).Changes refers :=
  fun _ _ _ hrun => absurd hrun run_refuse

theorem lift_changes (x : Except Fault α) : (liftM x : Drafting α).Changes refers := by
  intro d a d' hrun
  obtain ⟨-, rfl⟩ := run_lift.mp hrun
  exact .refl

theorem get_bind_changes {f : Draft → Drafting β} (hf : ∀ d, (f d).Changes refers) :
    (get >>= f).Changes refers :=
  fun d b d' hrun => hf d d b d' hrun

theorem modify_changes {f : Draft → Draft} (hf : ∀ d, Draft.Change refers d (f d)) :
    (modify f : Drafting PUnit).Changes refers := by
  intro d a d' hrun
  obtain rfl := run_modify.mp hrun
  exact .single (hf d)

theorem forM_changes {xs : List β} {f : β → Drafting Unit} (hf : ∀ x, (f x).Changes refers) :
    (xs.forM f).Changes refers := by
  induction xs with
  | nil => exact pure_changes ()
  | cons x xs ih =>
    have hboth : (f x >>= fun _ => xs.forM f).Changes refers := (hf x).bind fun _ => ih
    exact hboth

theorem mapM_changes {xs : List β} {f : β → Drafting α} (hf : ∀ x, (f x).Changes refers) :
    (xs.mapM f).Changes refers := by
  induction xs with
  | nil =>
    rw [List.mapM_nil]
    exact pure_changes _
  | cons x xs ih =>
    rw [List.mapM_cons]
    exact (hf x).bind fun a => ih.bind fun as => pure_changes _

/-! ### Symbols and rules -/

theorem addSymbol_changes (name : String) {kind : SymbolKind} (hkind : ∀ cls, kind ≠ .char cls)
    (offset : Nat) : (addSymbol name kind offset).Changes refers := by
  intro d s d' hrun
  obtain ⟨-, rfl⟩ := addSymbol_run hrun
  exact .single (.symbol name offset hkind)

theorem characterSymbol_changes (cls : CharClass) (offset : Nat) :
    (characterSymbol cls offset).Changes refers := by
  intro d s d' hrun
  obtain ⟨_, _, hget, hrun⟩ := run_bind.mp hrun
  obtain ⟨rfl, rfl⟩ := run_get.mp hget
  split at hrun
  · obtain ⟨-, rfl⟩ := run_pure.mp hrun
    exact .refl
  next hnew =>
    obtain ⟨s, _, hsymbol, hrun⟩ := run_bind.mp hrun
    obtain ⟨rfl, rfl⟩ := addSymbol_run hsymbol
    obtain ⟨_, _, hmodify, hrun⟩ := run_bind.mp hrun
    obtain rfl := run_modify.mp hmodify
    obtain ⟨-, rfl⟩ := run_pure.mp hrun
    exact .single (.character offset hnew)

theorem characterSymbols_changes (t : Terminal) (offset : Nat) :
    (characterSymbols t offset).Changes refers :=
  mapM_changes fun cls => characterSymbol_changes cls offset

theorem addRule_changes (level : Level) (r : Rule) : (addRule level r).Changes refers := by
  refine modify_changes fun d => ?_
  cases level with
  | structural => exact .rule .structural r
  | lexical => exact .rule .lexical r

theorem addPlain_changes (level : Level) (lhs : SymbolId) (rhs : List SymbolId) (name : String)
    (semantics : Semantics) (rank : Int) :
    (addPlain level lhs rhs name semantics rank).Changes refers :=
  addRule_changes level _

theorem addDeclared_changes (level : Level) (lhs : SymbolId) (rhs : List SymbolId)
    (name : String) (semantics : Semantics) (rank : Int) (offset : Nat) :
    (addDeclared level lhs rhs name semantics rank offset).Changes refers := by
  intro d u d' hrun
  rw [addDeclared] at hrun
  obtain ⟨_, _, hget, hrun⟩ := run_bind.mp hrun
  obtain ⟨rfl, rfl⟩ := run_get.mp hget
  split at hrun
  · exact absurd hrun run_refuse
  next hnew =>
    obtain ⟨_, e, hset, hrun⟩ := run_bind.mp hrun
    obtain rfl := run_set.mp hset
    have hnoted : Draft.Change refers d { d with declared := (level, lhs, rhs) :: d.declared } :=
      .declared level lhs rhs (by simpa using hnew)
    exact .head hnoted (addPlain_changes level lhs rhs name semantics rank _ u d' hrun)

/-! ### Elements -/

theorem anonymousLexeme_changes (t : Terminal) (offset : Nat) :
    (anonymousLexeme t offset).Changes refers := by
  intro d s d' hrun
  obtain ⟨_, _, hget, hrun⟩ := run_bind.mp hrun
  obtain ⟨rfl, rfl⟩ := run_get.mp hget
  split at hrun
  · obtain ⟨-, rfl⟩ := run_pure.mp hrun
    exact .refl
  next hnew =>
    obtain ⟨id, _, hsymbol, hrun⟩ := run_bind.mp hrun
    obtain ⟨rfl, rfl⟩ := addSymbol_run hsymbol
    obtain ⟨_, e, hmodify, hrun⟩ := run_bind.mp hrun
    obtain rfl := run_modify.mp hmodify
    have hrest : (characterSymbols t offset >>= fun rhs =>
        addPlain .lexical d.symbols.size rhs t.spelling (.apply none) 0 >>= fun _ =>
          pure d.symbols.size).Changes refers :=
      (characterSymbols_changes t offset).bind fun rhs =>
        (addPlain_changes _ _ _ _ _ _).bind fun _ => pure_changes _
    exact .head (.anonymous offset hnew) (hrest _ _ _ hrun)

theorem namedLexeme_changes (name : String) (offset : Nat) :
    (namedLexeme o name offset).Changes refers := by
  rw [namedLexeme]
  split
  next s _ => exact Changes.bind (modify_changes fun d => .lexeme s) fun _ => pure_changes s
  next => exact refuse_changes _ _

theorem useLexeme_changes (s : SymbolId) : (useLexeme s).Changes refers := by
  rw [useLexeme]
  exact Changes.bind (modify_changes fun d => .used s) fun _ => pure_changes s

theorem structuralSymbol_changes (raw : String) (offset : Nat) :
    (structuralSymbol o raw offset).Changes refers := by
  rw [structuralSymbol]
  refine (lift_changes _).bind fun e => ?_
  cases e with
  | name name =>
    simp only
    split
    · exact pure_changes _
    · exact (namedLexeme_changes name offset).bind fun s => useLexeme_changes s
  | terminal t => exact (anonymousLexeme_changes t offset).bind fun s => useLexeme_changes s

theorem structuralSymbols_changes (items : List RhsItem) :
    (structuralSymbols o items).Changes refers :=
  mapM_changes fun item => structuralSymbol_changes item.element item.offset

theorem discardSymbol_changes (raw : String) (offset : Nat) :
    (discardSymbol o raw offset).Changes refers := by
  rw [discardSymbol]
  refine (lift_changes _).bind fun e => ?_
  cases e with
  | name name =>
    simp only
    split
    · exact refuse_changes _ _
    · exact namedLexeme_changes name offset
  | terminal t => exact anonymousLexeme_changes t offset

theorem discard_changes (raw : String) (offset : Nat) : (discard o raw offset).Changes refers := by
  rw [discard]
  exact (discardSymbol_changes raw offset).bind fun s =>
    modify_changes fun d => .discarded s

/-! ### Structural statements -/

theorem plainAlternative_changes (lhs : SymbolId) (name : String) (alt : Alternative) :
    (plainAlternative o lhs name alt).Changes refers := by
  rw [plainAlternative]
  exact (lift_changes _).bind fun adverbs => (structuralSymbols_changes _).bind fun rhs =>
    addDeclared_changes _ _ _ _ _ _ _

theorem sequence_changes (lhs : SymbolId) (name : String) (item : RhsItem) (alt : Alternative) :
    (sequence o lhs name item alt).Changes refers := by
  rw [sequence_eq]
  refine (lift_changes _).bind fun adverbs => ?_
  refine (structuralSymbol_changes _ _).bind fun element => ?_
  have hseparator :
      (adverbs.separator.mapM fun x => structuralSymbol o x.1 x.2).Changes refers := by
    cases adverbs.separator with
    | none => exact pure_changes none
    | some x => exact (structuralSymbol_changes _ _).bind fun s => pure_changes _
  refine hseparator.bind fun separator => ?_
  refine (addSymbol_changes _ (by simp) _).bind fun items => ?_
  exact forM_changes fun r => addRule_changes .structural r

theorem alternative_changes (lhs : SymbolId) (name : String) (alone : Bool) (alt : Alternative) :
    (alternative o lhs name alone alt).Changes refers := by
  rw [alternative]
  split
  · exact plainAlternative_changes lhs name alt
  · split
    · exact sequence_changes lhs name _ alt
    · exact refuse_changes _ _

theorem tierAlternative_changes (lhs : SymbolId) (name : String) (current tighter : SymbolId)
    (alt : Alternative) : (tierAlternative o lhs name current tighter alt).Changes refers := by
  rw [tierAlternative]
  split
  · exact refuse_changes _ _
  · refine (lift_changes _).bind fun adverbs => ?_
    refine (mapM_changes fun item => lift_changes _).bind fun elements => ?_
    exact (structuralSymbols_changes _).bind fun rhs => addDeclared_changes _ _ _ _ _ _ _

theorem precedence_changes (lhs : SymbolId) (name : String) (tiers : List (List Alternative)) :
    (precedence o lhs name tiers).Changes refers := by
  rw [precedence_eq]
  refine get_bind_changes fun d => ?_
  refine (mapM_changes fun p => addSymbol_changes _ (by simp) _).bind fun levels => ?_
  refine (forM_changes fun r => addRule_changes .structural r).bind fun _ => ?_
  exact forM_changes fun x => forM_changes fun alt => tierAlternative_changes lhs name _ _ alt

theorem structural_changes (spelling : String) (tiers : List (List Alternative)) (offset : Nat) :
    (structural o spelling tiers offset).Changes refers := by
  rw [structural]
  refine (lift_changes _).bind fun name => ?_
  split
  · exact pure_changes ()
  · split
    · exact forM_changes fun alt => alternative_changes _ name _ alt
    · exact precedence_changes _ name tiers

/-! ### Lexical statements -/

theorem quantified_changes (name : String) (body : List SymbolId) (q : Quantifier)
    (offset : Nat) : (quantified name body q offset).Changes refers := by
  rw [quantified]
  refine get_bind_changes fun d => ?_
  refine (addSymbol_changes _ (by simp) _).bind fun s => ?_
  exact (forM_changes fun rhs => addPlain_changes _ _ _ _ _ _).bind fun _ => pure_changes s

theorem lexicalBody_changes (lhs : SymbolId) (item : RhsItem) :
    (lexicalBody o lhs item).Changes True := by
  rw [lexicalBody]
  refine (lift_changes _).bind fun e => ?_
  split
  · exact characterSymbols_changes _ _
  · split
    · exact refuse_changes _ _
    · split
      · exact refuse_changes _ _
      next id _ =>
        exact Changes.bind (modify_changes fun d => .referred trivial lhs id)
          fun _ => pure_changes _

theorem lexicalItem_changes (lhs : SymbolId) (name : String) (item : RhsItem) :
    (lexicalItem o lhs name item).Changes True := by
  rw [lexicalItem]
  refine (lexicalBody_changes lhs item).bind fun body => ?_
  split
  · exact pure_changes body
  · exact (quantified_changes _ _ _ _).bind fun s => pure_changes _

theorem lexicalAlternative_changes (lhs : SymbolId) (name : String) (alt : Alternative) :
    (lexicalAlternative o lhs name alt).Changes True := by
  rw [lexicalAlternative]
  split
  · exact refuse_changes _ _
  · exact (mapM_changes fun item => lexicalItem_changes lhs name item).bind fun parts =>
      addDeclared_changes _ _ _ _ _ _ _

theorem lexical_changes (spelling : String) (alternatives : List Alternative) (offset : Nat) :
    (lexical o spelling alternatives offset).Changes True := by
  rw [lexical]
  refine (lift_changes _).bind fun name => ?_
  split
  · exact pure_changes ()
  · exact forM_changes fun alt => lexicalAlternative_changes _ name alt

/-! ### All statements -/

theorem discardStatement_changes (s : Statement) : (discardStatement o s).Changes refers := by
  cases s with
  | discard element offset => exact discard_changes element offset
  | _ => exact pure_changes ()

theorem structuralStatement_changes (s : Statement) :
    (structuralStatement o s).Changes refers := by
  cases s with
  | structural lhs tiers offset => exact structural_changes lhs tiers offset
  | _ => exact pure_changes ()

theorem lexicalStatement_changes (s : Statement) : (lexicalStatement o s).Changes True := by
  cases s with
  | lexical lhs alternatives offset => exact lexical_changes lhs alternatives offset
  | _ => exact pure_changes ()

/-- The passes over the statements consist of elementary changes. -/
theorem statements_changes (o : Outline) (ss : List Statement) :
    (statements o ss).Changes True := by
  rw [statements_eq]
  exact (forM_changes discardStatement_changes).bind fun _ =>
    (forM_changes structuralStatement_changes).bind fun _ => forM_changes lexicalStatement_changes

end Drafting

end Scannerless
