import Scannerless.Proofs.Grammar.Faults
import Scannerless.Proofs.Grammar.Lowering

/-!
# Places of faults

A step that extends a draft keeps the offsets of the draft among those of the statements, and it
retains what has been declared and which symbols spellings have. Where it fails, it says so of one
of these offsets: something is malformed there, or a name stands there that has no rules at all.
The checks of a draft that is complete say what they find of the offset that introduced a symbol.
Every fault of statements therefore is at an offset that one of them carries.

## Main definitions

- `Fault.Among` — what the passes find, at one of some offsets.
- `Draft.Retains` — what was declared and spelled in a draft still is in another one.
- `Drafting.Keeps` — a step keeps offsets, retains the rest, and fails among the offsets.

## Main statements

- `Drafting.statements_keeps` — the passes.
- `Draft.Placed.offset_of_finish` — the checks of a complete draft.
- `Grammar.offset_of_ofStatements` — a fault of statements is at an offset of one of them.
- `Grammar.exists_fault_of_not_run` — a fault that the passes find.
-/

namespace Scannerless

/-- A fault that a pass finds is at an offset with a property. Something is malformed there, or a
    name has no rules on any level. -/
structure Fault.Among (o : Outline) (Q : Nat → Prop) (f : Fault) : Prop where
  offset : Q f.offset
  kind : f.cause.kind = .malformedRule ∨ ∃ name, f.cause = .missingSymbol name ∧
    o.structuralId? name = none ∧ o.lexicalId? name = none

/-- The offsets of a draft have a property. -/
def Draft.Placed (Q : Nat → Prop) (d : Draft) : Prop :=
  ∀ n ∈ d.offsets, Q n

variable {o : Outline} {Q : Nat → Prop} {f : Fault}

theorem Fault.MalformedAt.among (h : f.MalformedAt Q) : f.Among o Q :=
  ⟨h.offset, Or.inl h.kind⟩

theorem Draft.Placed.push {d : Draft} (hd : d.Placed Q) {offset : Nat} (hoffset : Q offset) :
    ∀ n ∈ d.offsets.push offset, Q n := by
  intro n hn
  rcases Array.mem_push.mp hn with hn | rfl
  · exact hd n hn
  · exact hoffset

/-- A symbol was introduced at one of the offsets, or it has none. -/
theorem Draft.Placed.offset {d : Draft} (hd : d.Placed Q) (hzero : Q 0) (s : SymbolId) :
    Q (d.offset s) := by
  rw [Draft.offset, Array.getD_eq_getD_getElem?]
  cases hs : d.offsets[s]? with
  | none => exact hzero
  | some n => exact hd n (Array.mem_of_getElem? hs)

/-- What was declared in a draft is declared in another one, and spellings keep their symbols. -/
structure Draft.Retains (d d' : Draft) : Prop where
  declared : d.declared ⊆ d'.declared
  anonymous : ∀ key s, d.anonymous.lookup key = some s → d'.anonymous.lookup key = some s
  characters : ∀ key s, d.characters.lookup key = some s → d'.characters.lookup key = some s

namespace Draft.Retains

variable {d d' d'' : Draft}

theorem of_eq (hdeclared : d'.declared = d.declared) (hanonymous : d'.anonymous = d.anonymous)
    (hcharacters : d'.characters = d.characters) : d.Retains d' where
  declared := by
    rw [hdeclared]
    exact List.Subset.refl _
  anonymous key s h := by rwa [hanonymous]
  characters key s h := by rwa [hcharacters]

theorem refl (d : Draft) : d.Retains d :=
  .of_eq rfl rfl rfl

theorem trans (h : d.Retains d') (h' : d'.Retains d'') : d.Retains d'' where
  declared := List.Subset.trans h.declared h'.declared
  anonymous key s hs := h'.anonymous key s (h.anonymous key s hs)
  characters key s hs := h'.characters key s (h.characters key s hs)

end Draft.Retains

/-- A spelling that had no symbol takes none away. -/
theorem lookup_cons_of_lookup {entries : List (String × SymbolId)} {key key' : String}
    {s s' : SymbolId} (hnew : entries.lookup key = none) (h : entries.lookup key' = some s) :
    ((key, s') :: entries).lookup key' = some s := by
  rw [List.lookup_cons]
  split
  next heq =>
    rw [eq_of_beq heq, hnew] at h
    cases h
  next => exact h

namespace Drafting

variable {α β : Type}

/-- A step keeps the offsets of a draft among some, and retains what was read. Its faults are at
    one of the offsets. -/
structure Keeps (o : Outline) (Q : Nat → Prop) (m : Drafting α) : Prop where
  ok : ∀ {d a d'}, m.run d = .ok (a, d') → d.Placed Q → d'.Placed Q ∧ d.Retains d'
  error : ∀ {d f}, m.run d = .error f → d.Placed Q → f.Among o Q

/-! ### Steps one after the other -/

theorem run_bind_eq_error {m : Drafting α} {g : α → Drafting β} {d : Draft} :
    (m >>= g).run d = .error f ↔
      m.run d = .error f ∨ ∃ a d', m.run d = .ok (a, d') ∧ (g a).run d' = .error f := by
  rw [StateT.run_bind, bind_eq_error_iff]
  constructor
  · rintro (h | ⟨⟨a, d'⟩, h, h'⟩)
    · exact Or.inl h
    · exact Or.inr ⟨a, d', h, h'⟩
  · rintro (h | ⟨a, d', h, h'⟩)
    · exact Or.inl h
    · exact Or.inr ⟨(a, d'), h, h'⟩

theorem Keeps.bind {m : Drafting α} {g : α → Drafting β} (hm : m.Keeps o Q)
    (hg : ∀ a, (g a).Keeps o Q) : (m >>= g).Keeps o Q where
  ok h hd := by
    obtain ⟨a, e, hrun, hrun'⟩ := run_bind.mp h
    obtain ⟨he, hretains⟩ := hm.ok hrun hd
    obtain ⟨hd', hretains'⟩ := (hg a).ok hrun' he
    exact ⟨hd', hretains.trans hretains'⟩
  error h hd := by
    rcases run_bind_eq_error.mp h with h | ⟨a, e, hrun, h⟩
    · exact hm.error h hd
    · exact (hg a).error h (hm.ok hrun hd).1

theorem pure_keeps (a : α) : (pure a : Drafting α).Keeps o Q where
  ok h hd := by
    obtain ⟨-, rfl⟩ := run_pure.mp h
    exact ⟨hd, .refl _⟩
  error h _ := by cases h

theorem refuse_keeps {cause : Cause} {offset : Nat} (h : Fault.Among o Q ⟨cause, offset⟩) :
    (refuse cause offset : Drafting α).Keeps o Q where
  ok hrun _ := absurd hrun run_refuse
  error hrun _ := by
    obtain rfl := Except.error.inj hrun
    exact h

/-- A step that finds something malformed. -/
theorem refuse_malformed_keeps {cause : Cause} {offset : Nat} (hoffset : Q offset)
    (hkind : cause.kind = .malformedRule) : (refuse cause offset : Drafting α).Keeps o Q :=
  refuse_keeps ⟨hoffset, Or.inl hkind⟩

/-- What is read apart from the draft may be malformed. -/
theorem lift_bind_keeps {x : Except Fault α} {g : α → Drafting β}
    (hx : ∀ f, x = .error f → f.MalformedAt Q) (hg : ∀ a, x = .ok a → (g a).Keeps o Q) :
    (liftM x >>= g).Keeps o Q where
  ok h hd := by
    obtain ⟨a, e, hlift, h⟩ := run_bind.mp h
    obtain ⟨hok, rfl⟩ := run_lift.mp hlift
    exact (hg a hok).ok h hd
  error h hd := by
    cases x with
    | error e =>
      obtain rfl := Except.error.inj h
      exact (hx _ rfl).among
    | ok a => exact (hg a rfl).error h hd

theorem lift_keeps {x : Except Fault α} (hx : ∀ f, x = .error f → f.MalformedAt Q) :
    (liftM x : Drafting α).Keeps o Q := by
  rw [← bind_pure (liftM x : Drafting α)]
  exact lift_bind_keeps hx fun a _ => pure_keeps a

theorem get_bind_keeps {g : Draft → Drafting β} (hg : ∀ d, d.Placed Q → (g d).Keeps o Q) :
    (get >>= g).Keeps o Q where
  ok h hd := (hg _ hd).ok h hd
  error h hd := (hg _ hd).error h hd

theorem modify_keeps {g : Draft → Draft} (hoffsets : ∀ d, (g d).offsets = d.offsets)
    (hretains : ∀ d : Draft, d.Retains (g d)) : (modify g : Drafting PUnit).Keeps o Q where
  ok {d _ _} h hd := by
    obtain rfl := run_modify.mp h
    refine ⟨?_, hretains d⟩
    rwa [Draft.Placed, hoffsets]
  error h _ := by cases h

theorem forM_keeps {xs : List β} {g : β → Drafting Unit} (hg : ∀ x ∈ xs, (g x).Keeps o Q) :
    (xs.forM g).Keeps o Q := by
  induction xs with
  | nil => exact pure_keeps ()
  | cons x xs ih =>
    rw [List.forall_mem_cons] at hg
    have hboth : (g x >>= fun _ => xs.forM g).Keeps o Q := hg.1.bind fun _ => ih hg.2
    exact hboth

theorem mapM_keeps {xs : List β} {g : β → Drafting α} (hg : ∀ x ∈ xs, (g x).Keeps o Q) :
    (xs.mapM g).Keeps o Q := by
  induction xs with
  | nil =>
    rw [List.mapM_nil]
    exact pure_keeps _
  | cons x xs ih =>
    rw [List.forall_mem_cons] at hg
    rw [List.mapM_cons]
    exact hg.1.bind fun a => (ih hg.2).bind fun as => pure_keeps _

/-! ### Symbols and rules -/

variable {offset : Nat}

theorem addSymbol_keeps (name : String) (kind : SymbolKind) (hoffset : Q offset) :
    (addSymbol name kind offset).Keeps o Q where
  ok h hd := by
    obtain ⟨-, rfl⟩ := addSymbol_run h
    exact ⟨hd.push hoffset, .of_eq rfl rfl rfl⟩
  error h _ := by cases h

/-- The symbol of a class is known by its spelling. -/
theorem characterSymbol_keeps (cls : CharClass) (hoffset : Q offset) :
    (characterSymbol cls offset).Keeps o Q where
  ok {d _ _} h hd := by
    obtain ⟨_, _, hget, h⟩ := run_bind.mp h
    obtain ⟨rfl, rfl⟩ := run_get.mp hget
    split at h
    · obtain ⟨-, rfl⟩ := run_pure.mp h
      exact ⟨hd, .refl d⟩
    next hnew =>
      obtain ⟨s, _, hsymbol, h⟩ := run_bind.mp h
      obtain ⟨-, rfl⟩ := addSymbol_run hsymbol
      obtain ⟨_, _, hmodify, h⟩ := run_bind.mp h
      obtain rfl := run_modify.mp hmodify
      obtain ⟨-, rfl⟩ := run_pure.mp h
      exact ⟨hd.push hoffset, List.Subset.refl _, fun _ _ h => h,
        fun _ _ h => lookup_cons_of_lookup hnew h⟩
  error h _ := by
    rcases run_bind_eq_error.mp h with h | ⟨_, _, hget, h⟩
    · cases h
    split at h <;> cases h

theorem lookup_of_characterSymbol {cls : CharClass} {d d' : Draft} {s : SymbolId}
    (h : (characterSymbol cls offset).run d = .ok (s, d')) :
    d'.characters.lookup cls.spelling = some s := by
  obtain ⟨_, _, hget, h⟩ := run_bind.mp h
  obtain ⟨rfl, rfl⟩ := run_get.mp hget
  split at h
  next hs =>
    obtain ⟨rfl, rfl⟩ := run_pure.mp h
    exact hs
  next =>
    obtain ⟨_, _, hsymbol, h⟩ := run_bind.mp h
    obtain ⟨_, _, hmodify, h⟩ := run_bind.mp h
    obtain rfl := run_modify.mp hmodify
    obtain ⟨rfl, rfl⟩ := run_pure.mp h
    simp

theorem characterSymbols_keeps (t : Terminal) (hoffset : Q offset) :
    (characterSymbols t offset).Keeps o Q :=
  mapM_keeps fun cls _ => characterSymbol_keeps cls hoffset

theorem addRule_keeps (level : Level) (r : Rule) : (addRule level r).Keeps o Q := by
  cases level with
  | structural => exact modify_keeps (fun _ => rfl) fun _ => .of_eq rfl rfl rfl
  | lexical => exact modify_keeps (fun _ => rfl) fun _ => .of_eq rfl rfl rfl

theorem addPlain_keeps (level : Level) (lhs : SymbolId) (rhs : List SymbolId) (name : String)
    (semantics : Semantics) (rank : Int) :
    (addPlain level lhs rhs name semantics rank).Keeps o Q :=
  addRule_keeps level _

/-- A rule that repeats is malformed where it is written again. -/
theorem addDeclared_keeps (level : Level) (lhs : SymbolId) (rhs : List SymbolId)
    (name : String) (semantics : Semantics) (rank : Int) (hoffset : Q offset) :
    (addDeclared level lhs rhs name semantics rank offset).Keeps o Q where
  ok {d _ _} h hd := by
    obtain ⟨_, _, hget, h⟩ := run_bind.mp h
    obtain ⟨rfl, rfl⟩ := run_get.mp hget
    split at h
    · exact absurd h run_refuse
    · obtain ⟨_, e, hset, h⟩ := run_bind.mp h
      obtain rfl := run_set.mp hset
      have hnoted : d.Retains { d with declared := (level, lhs, rhs) :: d.declared } :=
        ⟨List.subset_cons_self _ _, fun _ _ h => h, fun _ _ h => h⟩
      have hkeeps : (addPlain level lhs rhs name semantics rank).Keeps o Q :=
        addPlain_keeps level lhs rhs name semantics rank
      obtain ⟨hd', hretains⟩ := hkeeps.ok h hd
      exact ⟨hd', hnoted.trans hretains⟩
  error h _ := by
    rcases run_bind_eq_error.mp h with h | ⟨_, _, hget, h⟩
    · cases h
    obtain ⟨rfl, rfl⟩ := run_get.mp hget
    split at h
    · obtain rfl := Except.error.inj h
      exact ⟨hoffset, Or.inl rfl⟩
    · cases h

/-- A rule is declared once: it was not before, and it is behind the step. -/
theorem declared_of_addDeclared {level : Level} {lhs : SymbolId} {rhs : List SymbolId}
    {name : String} {semantics : Semantics} {rank : Int} {d d' : Draft} {u : Unit}
    (h : (addDeclared level lhs rhs name semantics rank offset).run d = .ok (u, d')) :
    (level, lhs, rhs) ∉ d.declared ∧ (level, lhs, rhs) ∈ d'.declared := by
  obtain ⟨_, _, hget, h⟩ := run_bind.mp h
  obtain ⟨rfl, rfl⟩ := run_get.mp hget
  split at h
  · exact absurd h run_refuse
  next hnew =>
    obtain ⟨_, e, hset, h⟩ := run_bind.mp h
    obtain rfl := run_set.mp hset
    have hkeeps : (addPlain level lhs rhs name semantics rank).Keeps .empty fun _ => True :=
      addPlain_keeps level lhs rhs name semantics rank
    have hretains := (hkeeps.ok h fun _ _ => trivial).2
    exact ⟨by simpa using hnew, hretains.declared List.mem_cons_self⟩

/-! ### Elements -/

/-- The lexeme of a terminal is known by its spelling. -/
theorem anonymousLexeme_keeps (t : Terminal) (hoffset : Q offset) :
    (anonymousLexeme t offset).Keeps o Q := by
  have hrest (s : SymbolId) : (characterSymbols t offset >>= fun rhs =>
      addPlain .lexical s rhs t.spelling (.apply none) 0 >>= fun _ => pure s).Keeps o Q :=
    (characterSymbols_keeps t hoffset).bind fun rhs =>
      (addPlain_keeps _ _ _ _ _ _).bind fun _ => pure_keeps s
  constructor
  · intro d a d' h hd
    obtain ⟨_, _, hget, h⟩ := run_bind.mp h
    obtain ⟨rfl, rfl⟩ := run_get.mp hget
    split at h
    · obtain ⟨-, rfl⟩ := run_pure.mp h
      exact ⟨hd, .refl d⟩
    next hnew =>
      obtain ⟨s, _, hsymbol, h⟩ := run_bind.mp h
      obtain ⟨-, rfl⟩ := addSymbol_run hsymbol
      obtain ⟨_, _, hmodify, h⟩ := run_bind.mp h
      obtain rfl := run_modify.mp hmodify
      obtain ⟨hd', hretains⟩ := (hrest s).ok h (hd.push hoffset)
      refine ⟨hd', .trans ?_ hretains⟩
      exact ⟨List.Subset.refl _, fun _ _ h => lookup_cons_of_lookup hnew h, fun _ _ h => h⟩
  · intro d f h hd
    rcases run_bind_eq_error.mp h with h | ⟨_, _, hget, h⟩
    · cases h
    obtain ⟨rfl, rfl⟩ := run_get.mp hget
    split at h
    · cases h
    · exact (hrest _).error h (hd.push hoffset)

theorem lookup_of_anonymousLexeme {t : Terminal} {d d' : Draft} {s : SymbolId}
    (h : (anonymousLexeme t offset).run d = .ok (s, d')) :
    d'.anonymous.lookup t.spelling = some s := by
  obtain ⟨_, _, hget, h⟩ := run_bind.mp h
  obtain ⟨rfl, rfl⟩ := run_get.mp hget
  split at h
  next hs =>
    obtain ⟨rfl, rfl⟩ := run_pure.mp h
    exact hs
  next =>
    obtain ⟨id, _, hsymbol, h⟩ := run_bind.mp h
    obtain ⟨_, e, hmodify, h⟩ := run_bind.mp h
    obtain rfl := run_modify.mp hmodify
    obtain ⟨rhs, e', hcharacters, h⟩ := run_bind.mp h
    obtain ⟨_, _, hrule, h⟩ := run_bind.mp h
    obtain ⟨rfl, rfl⟩ := run_pure.mp h
    have hkeeps : (characterSymbols t offset >>= fun rhs =>
        addPlain .lexical id rhs t.spelling (.apply none) 0).Keeps .empty fun _ => True :=
      (characterSymbols_keeps t trivial).bind fun rhs => addPlain_keeps _ _ _ _ _ _
    have hretains := (hkeeps.ok (run_bind.mpr ⟨rhs, e', hcharacters, hrule⟩)
      fun _ _ => trivial).2
    exact hretains.anonymous _ _ (by simp)

/-- A name that has no structural rules either is missing. -/
theorem namedLexeme_keeps {name : String} (hname : o.structuralId? name = none)
    (hoffset : Q offset) : (namedLexeme o name offset).Keeps o Q := by
  rw [namedLexeme]
  split
  next s hs =>
    exact Keeps.bind (modify_keeps (fun _ => rfl) fun _ => .of_eq rfl rfl rfl) fun _ =>
      pure_keeps s
  next hnone => exact refuse_keeps ⟨hoffset, Or.inr ⟨name, rfl, hname, hnone⟩⟩

theorem useLexeme_keeps (s : SymbolId) : (useLexeme s).Keeps o Q := by
  rw [useLexeme]
  exact Keeps.bind (modify_keeps (fun _ => rfl) fun _ => .of_eq rfl rfl rfl) fun _ =>
    pure_keeps s

theorem structuralSymbol_keeps (raw : String) (hoffset : Q offset) :
    (structuralSymbol o raw offset).Keeps o Q := by
  rw [structuralSymbol]
  refine lift_bind_keeps (fun f => Element.malformedAt_of_decodeAt hoffset) fun e _ => ?_
  cases e with
  | name name =>
    simp only
    split
    · exact pure_keeps _
    next hname => exact (namedLexeme_keeps hname hoffset).bind fun s => useLexeme_keeps s
  | terminal t => exact (anonymousLexeme_keeps t hoffset).bind fun s => useLexeme_keeps s

theorem structuralSymbols_keeps {items : List RhsItem} (hitems : ∀ item ∈ items, Q item.offset) :
    (structuralSymbols o items).Keeps o Q :=
  mapM_keeps fun item hitem => structuralSymbol_keeps item.element (hitems item hitem)

theorem structuralId?_eq_none_of_not_isStructural {name : String}
    (h : ¬o.isStructural name = true) : o.structuralId? name = none := by
  rw [Outline.isStructural_iff, not_exists] at h
  exact Option.eq_none_iff_forall_ne_some.mpr h

theorem discard_keeps (raw : String) (hoffset : Q offset) : (discard o raw offset).Keeps o Q := by
  have hsymbol : (discardSymbol o raw offset).Keeps o Q := by
    rw [discardSymbol]
    refine lift_bind_keeps (fun f => Element.malformedAt_of_decodeAt hoffset) fun e _ => ?_
    cases e with
    | name name =>
      simp only
      split
      · exact refuse_malformed_keeps hoffset rfl
      next hname =>
        exact namedLexeme_keeps (structuralId?_eq_none_of_not_isStructural hname) hoffset
    | terminal t => exact anonymousLexeme_keeps t hoffset
  rw [discard]
  exact hsymbol.bind fun s => modify_keeps (fun _ => rfl) fun _ => .of_eq rfl rfl rfl

/-! ### Structural statements -/

variable {alt : Alternative}

/-- The offsets of the parts of an alternative. -/
theorem forall_mem_offsets_iff :
    (∀ n ∈ alt.offsets, Q n) ↔
      Q alt.offset ∧ (∀ item ∈ alt.rhs, Q item.offset) ∧ ∀ a ∈ alt.adverbs, Q a.offset := by
  simp only [Alternative.offsets, List.forall_mem_cons, List.forall_mem_append,
    List.forall_mem_map]

theorem plainAlternative_keeps (lhs : SymbolId) (name : String) (halt : ∀ n ∈ alt.offsets, Q n) :
    (plainAlternative o lhs name alt).Keeps o Q := by
  obtain ⟨hoffset, hitems, hadverbs⟩ := forall_mem_offsets_iff.mp halt
  rw [plainAlternative]
  refine lift_bind_keeps (fun f => RuleAdverbs.malformedAt_of_read hadverbs) fun adverbs _ => ?_
  exact (structuralSymbols_keeps hitems).bind fun rhs => addDeclared_keeps _ _ _ _ _ _ hoffset

theorem sequence_keeps (lhs : SymbolId) (name : String) {item : RhsItem} (hitem : item ∈ alt.rhs)
    (halt : ∀ n ∈ alt.offsets, Q n) : (sequence o lhs name item alt).Keeps o Q := by
  obtain ⟨hoffset, hitems, hadverbs⟩ := forall_mem_offsets_iff.mp halt
  rw [sequence_eq]
  refine lift_bind_keeps (fun f => RuleAdverbs.malformedAt_of_read hadverbs) fun adverbs hread => ?_
  refine (structuralSymbol_keeps _ (hitems item hitem)).bind fun element => ?_
  have hseparator : (adverbs.separator.mapM fun x => structuralSymbol o x.1 x.2).Keeps o Q := by
    cases hwritten : adverbs.separator with
    | none => exact pure_keeps none
    | some x =>
      have hx := RuleAdverbs.separator_offset hadverbs hread hwritten
      exact (structuralSymbol_keeps x.1 hx).bind fun s => pure_keeps _
  refine hseparator.bind fun separator => ?_
  refine (addSymbol_keeps _ _ hoffset).bind fun items => ?_
  exact forM_keeps fun r _ => addRule_keeps .structural r

theorem alternative_keeps (lhs : SymbolId) (name : String) (alone : Bool)
    (halt : ∀ n ∈ alt.offsets, Q n) : (alternative o lhs name alone alt).Keeps o Q := by
  rw [alternative]
  split
  · exact plainAlternative_keeps lhs name halt
  next item hfind =>
    have hitem := List.mem_of_find?_eq_some hfind
    split
    · exact sequence_keeps lhs name hitem halt
    · exact refuse_malformed_keeps ((forall_mem_offsets_iff.mp halt).2.1 item hitem) rfl

theorem tierAlternative_keeps (lhs : SymbolId) (name : String) (current tighter : SymbolId)
    (halt : ∀ n ∈ alt.offsets, Q n) :
    (tierAlternative o lhs name current tighter alt).Keeps o Q := by
  obtain ⟨hoffset, hitems, hadverbs⟩ := forall_mem_offsets_iff.mp halt
  rw [tierAlternative]
  split
  next item hfind =>
    exact refuse_malformed_keeps (hitems item (List.mem_of_find?_eq_some hfind)) rfl
  next =>
    refine lift_bind_keeps (fun f => RuleAdverbs.malformedAt_of_read hadverbs) fun adverbs _ => ?_
    have hdecode : (alt.rhs.mapM fun item =>
        (liftM (Element.decodeAt item.element item.offset) : Drafting Element)).Keeps o Q := by
      exact mapM_keeps fun item hitem =>
        lift_keeps fun f => Element.malformedAt_of_decodeAt (hitems item hitem)
    refine hdecode.bind fun elements => ?_
    exact (structuralSymbols_keeps hitems).bind fun rhs => addDeclared_keeps _ _ _ _ _ _ hoffset

theorem precedence_keeps (hzero : Q 0) (lhs : SymbolId) (name : String)
    {tiers : List (List Alternative)}
    (htiers : ∀ alternatives ∈ tiers, ∀ alt ∈ alternatives, ∀ n ∈ alt.offsets, Q n) :
    (precedence o lhs name tiers).Keeps o Q := by
  rw [precedence_eq]
  refine get_bind_keeps fun d hd => ?_
  refine (mapM_keeps fun p _ => addSymbol_keeps _ _ (hd.offset hzero lhs)).bind fun levels => ?_
  refine (forM_keeps fun r _ => addRule_keeps .structural r).bind fun _ => ?_
  refine forM_keeps fun x hx => forM_keeps fun alt halt => ?_
  exact tierAlternative_keeps lhs name _ _ (htiers x.1 (List.of_mem_zip hx).1 alt halt)

theorem structural_keeps (hzero : Q 0) (spelling : String) {tiers : List (List Alternative)}
    (hoffset : Q offset)
    (htiers : ∀ alternatives ∈ tiers, ∀ alt ∈ alternatives, ∀ n ∈ alt.offsets, Q n) :
    (structural o spelling tiers offset).Keeps o Q := by
  rw [structural]
  refine lift_bind_keeps (fun f => Element.malformedAt_of_decodeNameAt hoffset) fun name _ => ?_
  split
  · exact pure_keeps ()
  · split
    next alternatives =>
      exact forM_keeps fun alt halt =>
        alternative_keeps _ name _ (htiers alternatives List.mem_cons_self alt halt)
    · exact precedence_keeps hzero _ name htiers

/-! ### Lexical statements -/

theorem quantified_keeps (name : String) (body : List SymbolId) (q : Quantifier)
    (hoffset : Q offset) : (quantified name body q offset).Keeps o Q := by
  rw [quantified]
  refine get_bind_keeps fun d _ => ?_
  refine (addSymbol_keeps _ _ hoffset).bind fun s => ?_
  exact (forM_keeps fun rhs _ => addPlain_keeps _ _ _ _ _ _).bind fun _ => pure_keeps s

theorem lexicalBody_keeps (lhs : SymbolId) {item : RhsItem} (hitem : Q item.offset) :
    (lexicalBody o lhs item).Keeps o Q := by
  rw [lexicalBody]
  refine lift_bind_keeps (fun f => Element.malformedAt_of_decodeAt hitem) fun e _ => ?_
  cases e with
  | terminal t => exact characterSymbols_keeps t hitem
  | name name =>
    simp only
    split
    · exact refuse_malformed_keeps hitem rfl
    next hname =>
      split
      next hnone =>
        exact refuse_keeps ⟨hitem,
          Or.inr ⟨name, rfl, structuralId?_eq_none_of_not_isStructural hname, hnone⟩⟩
      · exact Keeps.bind (modify_keeps (fun _ => rfl) fun _ => .of_eq rfl rfl rfl) fun _ =>
          pure_keeps _

theorem lexicalItem_keeps (lhs : SymbolId) (name : String) {item : RhsItem}
    (hitem : Q item.offset) : (lexicalItem o lhs name item).Keeps o Q := by
  rw [lexicalItem]
  refine (lexicalBody_keeps lhs hitem).bind fun body => ?_
  split
  · exact pure_keeps body
  · exact (quantified_keeps _ _ _ hitem).bind fun s => pure_keeps _

theorem lexicalAlternative_keeps (lhs : SymbolId) (name : String)
    (halt : ∀ n ∈ alt.offsets, Q n) : (lexicalAlternative o lhs name alt).Keeps o Q := by
  obtain ⟨hoffset, hitems, hadverbs⟩ := forall_mem_offsets_iff.mp halt
  rw [lexicalAlternative]
  split
  next a rest hwritten =>
    rw [hwritten] at hadverbs
    exact refuse_malformed_keeps (hadverbs a List.mem_cons_self) rfl
  next =>
    refine (mapM_keeps fun item hitem => lexicalItem_keeps lhs name (hitems item hitem)).bind
      fun parts => ?_
    exact addDeclared_keeps _ _ _ _ _ _ hoffset

theorem lexical_keeps (spelling : String) {alternatives : List Alternative} (hoffset : Q offset)
    (halternatives : ∀ alt ∈ alternatives, ∀ n ∈ alt.offsets, Q n) :
    (lexical o spelling alternatives offset).Keeps o Q := by
  rw [lexical]
  refine lift_bind_keeps (fun f => Element.malformedAt_of_decodeNameAt hoffset) fun name _ => ?_
  split
  · exact pure_keeps ()
  · exact forM_keeps fun alt halt => lexicalAlternative_keeps _ name (halternatives alt halt)

/-! ### All statements -/

variable {s : Statement} {ss : List Statement}

theorem discardStatement_keeps (hs : ∀ n ∈ s.offsets, Q n) : (discardStatement o s).Keeps o Q := by
  cases s with
  | discard element offset => exact discard_keeps element (hs offset List.mem_cons_self)
  | _ => exact pure_keeps ()

theorem structuralStatement_keeps (hzero : Q 0) (hs : ∀ n ∈ s.offsets, Q n) :
    (structuralStatement o s).Keeps o Q := by
  cases s with
  | structural lhs tiers offset =>
    rw [Statement.offsets, List.forall_mem_cons] at hs
    refine structural_keeps hzero lhs hs.1 fun alternatives halternatives alt halt n hn => ?_
    exact hs.2 n (List.mem_flatMap.mpr ⟨alt, List.mem_flatten.mpr ⟨_, halternatives, halt⟩, hn⟩)
  | _ => exact pure_keeps ()

theorem lexicalStatement_keeps (hs : ∀ n ∈ s.offsets, Q n) : (lexicalStatement o s).Keeps o Q := by
  cases s with
  | lexical lhs alternatives offset =>
    rw [Statement.offsets, List.forall_mem_cons] at hs
    exact lexical_keeps lhs hs.1 fun alt halt n hn =>
      hs.2 n (List.mem_flatMap.mpr ⟨alt, halt, hn⟩)
  | _ => exact pure_keeps ()

/-- The passes find what is wrong at offsets of statements. -/
theorem statements_keeps (hzero : Q 0) (hss : ∀ s ∈ ss, ∀ n ∈ s.offsets, Q n) :
    (statements o ss).Keeps o Q := by
  rw [statements_eq]
  refine (forM_keeps fun s hs => discardStatement_keeps (hss s hs)).bind fun _ => ?_
  refine (forM_keeps fun s hs => structuralStatement_keeps hzero (hss s hs)).bind fun _ => ?_
  exact forM_keeps fun s hs => lexicalStatement_keeps (hss s hs)

end Drafting

/-! ### Checks of a complete draft -/

namespace Draft

variable {d : Draft}

theorem placed_ofOutline (ho : o.Placed Q) : (ofOutline o).Placed Q := by
  intro n hn
  rw [ofOutline, List.mem_toArray, List.mem_append] at hn
  rcases hn with hn | hn
  · obtain ⟨x, hx, rfl⟩ := List.mem_map.mp hn
    exact ho.structural x hx
  · obtain ⟨x, hx, rfl⟩ := List.mem_map.mp hn
    exact ho.lexical x hx

theorem Placed.offset_of_requireAcyclic (hd : d.Placed Q) (hzero : Q 0)
    {edges : Nat → List SymbolId} {cause : List String → Cause}
    (h : d.requireAcyclic edges cause = .error f) : Q f.offset := by
  rw [requireAcyclic] at h
  split at h
  · obtain rfl := Except.error.inj h
    exact hd.offset hzero _
  · cases h

theorem offset_of_startSymbol (ho : o.Placed Q) (hzero : Q 0) (h : startSymbol o = .error f) :
    Q f.offset := by
  rw [startSymbol] at h
  split at h
  next raw offset hstart =>
    have hoffset : Q offset := ho.start _ hstart
    rcases bind_eq_error_iff.mp h with h | ⟨name, -, h⟩
    · exact (Element.malformedAt_of_decodeNameAt hoffset h).offset
    · split at h
      · cases h
      · obtain rfl := Except.error.inj h
        exact hoffset
  next =>
    split at h
    · obtain rfl := Except.error.inj h
      exact hzero
    · cases h

/-- The checks of a complete draft say what they find of an offset that introduced a symbol. -/
theorem Placed.offset_of_finish (hd : d.Placed Q) (ho : o.Placed Q) (hzero : Q 0)
    {description : String} (h : d.finish o description = .error f) : Q f.offset := by
  rw [finish] at h
  rcases bind_eq_error_iff.mp h with h | ⟨_, -, h⟩
  · rw [requireDisjoint] at h
    split at h
    · obtain rfl := Except.error.inj h
      exact hd.offset hzero _
    · cases h
  rcases bind_eq_error_iff.mp h with h | ⟨_, -, h⟩
  · exact offset_of_startSymbol ho hzero h
  rcases bind_eq_error_iff.mp h with h | ⟨_, -, h⟩
  · exact hd.offset_of_requireAcyclic hzero h
  rcases bind_eq_error_iff.mp h with h | ⟨_, -, h⟩
  · rw [requireNonempty] at h
    split at h
    · obtain rfl := Except.error.inj h
      exact hd.offset hzero _
    · cases h
  rcases bind_eq_error_iff.mp h with h | ⟨_, -, h⟩
  · exact hd.offset_of_requireAcyclic hzero h
  · cases h

end Draft

/-- A fault of statements is at an offset that one of them carries, or at none. -/
theorem Grammar.offset_of_ofStatements {ss : List Statement} {description : String} (hzero : Q 0)
    (hss : ∀ s ∈ ss, ∀ n ∈ s.offsets, Q n)
    (h : Grammar.ofStatements ss description = .error f) : Q f.offset := by
  rw [ofStatements, bind_eq_error_iff] at h
  rcases h with h | ⟨o, ho, h⟩
  · exact (Outline.malformedAt_of_ofStatements hss h).offset
  have hplaced := Outline.placed_of_ofStatements hss ho
  have hkeeps := Drafting.statements_keeps (o := o) hzero hss
  rcases bind_eq_error_iff.mp h with h | ⟨⟨_, d⟩, hd, h⟩
  · exact (hkeeps.error h (Draft.placed_ofOutline hplaced)).offset
  · exact (hkeeps.ok hd (Draft.placed_ofOutline hplaced)).1.offset_of_finish hplaced hzero h

/-- Statements that the passes do not run over have a fault: something is malformed, or a name has
    no rules at all. -/
theorem Grammar.exists_fault_of_not_run {ss : List Statement}
    (h : ∀ o d d' u, Outline.ofStatements ss = .ok o →
      ¬(Drafting.statements o ss).run d = .ok (u, d')) (description : String) :
    ∃ f, Grammar.ofStatements ss description = .error f ∧ (f.cause.kind = .malformedRule ∨
      ∃ missing, f.cause = .missingSymbol missing ∧
        ∀ s ∈ ss, s.structuralName? ≠ some missing ∧ s.lexicalName? ≠ some missing) := by
  cases ho : Outline.ofStatements ss with
  | error f =>
    have hfault : f.MalformedAt fun _ => True :=
      Outline.malformedAt_of_ofStatements (fun _ _ _ _ => trivial) ho
    exact ⟨f, bind_eq_error_iff.mpr (Or.inl ho), Or.inl hfault.kind⟩
  | ok o =>
    cases hrun : (Drafting.statements o ss).run (Draft.ofOutline o) with
    | ok x => exact absurd hrun (h o _ _ _ ho)
    | error f =>
      refine ⟨f, bind_eq_error_iff.mpr (Or.inr ⟨o, ho, bind_eq_error_iff.mpr (Or.inl hrun)⟩), ?_⟩
      have hkeeps : (Drafting.statements o ss).Keeps o fun _ => True :=
        Drafting.statements_keeps trivial fun _ _ _ _ => trivial
      rcases (hkeeps.error hrun fun _ _ => trivial).kind with hkind | ⟨missing, hcause, hid, hid'⟩
      · exact Or.inl hkind
      · have hlists := Outline.lists_of_ofStatements ho
        refine Or.inr ⟨missing, hcause, fun s hs => ⟨fun hname => ?_, fun hname => ?_⟩⟩
        · obtain ⟨id, hsome⟩ :=
            Outline.isStructural_iff.mp ((hlists.structural missing).mpr ⟨s, hs, hname⟩)
          rw [hid] at hsome
          cases hsome
        · obtain ⟨id, hsome⟩ :=
            Outline.isLexical_iff.mp ((hlists.lexical missing).mpr ⟨s, hs, hname⟩)
          rw [hid'] at hsome
          cases hsome

end Scannerless
