import Mathlib.Data.Set.Lattice
import Scannerless.Definition
import Scannerless.Proofs.Grammar.Growth
import Scannerless.Proofs.Grammar.Outlines

/-!
# Rules for all new symbols

A step that makes a symbol also adds a rule for it, on the level of its kind. Between the two
the draft owes the rule. Each step is described by the debts that it settles, so that steps
one after the other settle what each of them settles, and a whole list of statements leaves
none. Names are left out: their rules come from the statements that define them.

## Main definitions

- `SymbolKind.level?` — the level that the rules of symbols of a kind belong to.
- `Draft.Owes` — the symbols that still need a rule are among some debts.
- `Drafting.Settles` — a step settles debts and leaves none of its own.

## Main statements

- `Drafting.addSymbol_bind_settles`, `Drafting.addRule_settles` — making and settling a debt.
- `Drafting.statements_settles` — statements leave no debts.
-/

namespace Scannerless

/-- The level that the rules of symbols of a kind belong to. -/
def SymbolKind.level? : SymbolKind → Option Level
  | .nonterminal => some .structural
  | .lexeme | .lexical => some .lexical
  | .char _ => none

/-- What a new symbol of a kind owes: a rule on its level. -/
def SymbolKind.debts (kind : SymbolKind) (s : SymbolId) : Set (Level × SymbolId) :=
  {x | kind.level? = some x.1 ∧ x.2 = s}

theorem SymbolKind.debts_eq_singleton {kind : SymbolKind} {level : Level} {s : SymbolId}
    (h : kind.level? = some level) : kind.debts s = {(level, s)} := by
  ext ⟨level', x⟩
  simp [debts, h, eq_comm]

theorem SymbolKind.debts_char (cls : CharClass) (s : SymbolId) :
    (SymbolKind.char cls).debts s = ∅ := by
  ext x
  simp [debts, level?]

/-- Every symbol but the names has a rule on its level or is among the debts, and every rule
    has a mask for its whole right side. -/
structure Draft.Owes (o : Outline) (d : Draft) (debts : Set (Level × SymbolId)) : Prop where
  rules : ∀ s k level, d.kind? s = some k → k.level? = some level →
    o.IsName s ∨ (level, s) ∈ debts ∨ ∃ r ∈ d.rules level, r.lhs = s
  masks : ∀ level, ∀ r ∈ d.rules level, r.mask.length = r.rhs.length

namespace Draft

variable {o : Outline} {d d' : Draft} {D D' : Set (Level × SymbolId)}

/-- With the same rules more is owed only for symbols that are new or have changed their kind. -/
theorem Owes.of_kinds (h : d.Owes o D)
    (hrules : d'.structural = d.structural ∧ d'.lexical = d.lexical) (hD : D ⊆ D')
    (hkind : ∀ s k level, d'.kind? s = some k → k.level? = some level →
      d.kind? s = some k ∨ o.IsName s ∨ (level, s) ∈ D') : d'.Owes o D' := by
  have hlevel (level : Level) : d'.rules level = d.rules level := by
    rw [Draft.rules, Draft.rules, hrules.1, hrules.2]
  refine ⟨fun s k level hs hk => ?_, fun level r hr => h.masks level r (hlevel level ▸ hr)⟩
  rw [hlevel]
  rcases hkind s k level hs hk with hs | hname | hdebt
  · rcases h.rules s k level hs hk with hname | hdebt | hrule
    · exact Or.inl hname
    · exact Or.inr (Or.inl (hD hdebt))
    · exact Or.inr (Or.inr hrule)
  · exact Or.inl hname
  · exact Or.inr (Or.inl hdebt)

theorem Owes.mono (h : d.Owes o D) (hD : D ⊆ D') : d.Owes o D' :=
  h.of_kinds ⟨rfl, rfl⟩ hD fun _ _ _ hs _ => Or.inl hs

/-- Tables other than those of symbols and rules may change. -/
theorem Owes.of_eq (h : d.Owes o D) (hsymbols : d'.symbols = d.symbols)
    (hrules : d'.structural = d.structural ∧ d'.lexical = d.lexical) : d'.Owes o D := by
  refine h.of_kinds hrules (Set.Subset.refl D) fun s k level hs _ => Or.inl ?_
  rwa [kind?, ← hsymbols]

/-- The draft of an outline has no symbols but the names. -/
theorem owes_ofOutline (o : Outline) : (Draft.ofOutline o).Owes o ∅ where
  rules s k level hs _ := by
    have hlt := lt_of_kind? hs
    left
    simpa [Outline.IsName, ofOutline] using hlt
  masks level r hr := by cases level <;> simp [Draft.rules, Level.pick, ofOutline] at hr

end Draft

namespace Drafting

variable {o : Outline} {α β : Type} {D D' : Set (Level × SymbolId)}

/-- A step settles debts: whatever else is owed before it, only that is owed after it. -/
def Settles (o : Outline) (m : Drafting α) (debts : Set (Level × SymbolId)) : Prop :=
  ∀ d a d' rest, m.run d = .ok (a, d') → d.Owes o (debts ∪ rest) → d'.Owes o rest

/-! ### Steps one after the other -/

theorem Settles.mono {m : Drafting α} (h : m.Settles o D) (hD : D' ⊆ D) : m.Settles o D' :=
  fun d a d' rest hrun hd => h d a d' rest hrun (hd.mono (Set.union_subset_union_left rest hD))

theorem Settles.bind {m : Drafting α} {f : α → Drafting β} (hm : m.Settles o D)
    (hf : ∀ a, (f a).Settles o D') : (m >>= f).Settles o (D ∪ D') := by
  intro d b d' rest hrun hd
  obtain ⟨a, e, hrun, hrun'⟩ := run_bind.mp hrun
  rw [Set.union_assoc] at hd
  exact hf a e b d' rest hrun' (hm d a e _ hrun hd)

/-- What the later steps settle is settled, whatever the first one does. -/
theorem Settles.bind_right {E : Set (Level × SymbolId)} {m : Drafting α} {f : α → Drafting β}
    (hm : m.Settles o E) (hf : ∀ a, (f a).Settles o D) : (m >>= f).Settles o D :=
  (hm.bind hf).mono Set.subset_union_right

/-- Steps that settle nothing may come last. -/
theorem Settles.bind_left {m : Drafting α} {f : α → Drafting β} (hm : m.Settles o D)
    (hf : ∀ a, (f a).Settles o ∅) : (m >>= f).Settles o D :=
  (hm.bind hf).mono Set.subset_union_left

theorem pure_settles (a : α) : (pure a : Drafting α).Settles o ∅ := by
  intro d a' d' rest hrun hd
  obtain ⟨-, rfl⟩ := run_pure.mp hrun
  rwa [Set.empty_union] at hd

theorem refuse_settles (cause : Cause) (offset : Nat) :
    (refuse cause offset : Drafting α).Settles o D :=
  fun _ _ _ _ hrun _ => absurd hrun run_refuse

theorem lift_settles (x : Except Fault α) : (liftM x : Drafting α).Settles o ∅ := by
  intro d a d' rest hrun hd
  obtain ⟨-, rfl⟩ := run_lift.mp hrun
  rwa [Set.empty_union] at hd

theorem lift_bind_settles {x : Except Fault α} {f : α → Drafting β}
    (hf : ∀ a, x = .ok a → (f a).Settles o D) : (liftM x >>= f).Settles o D := by
  intro d b d' rest hrun hd
  obtain ⟨a, e, hlift, hrun'⟩ := run_bind.mp hrun
  obtain ⟨hx, rfl⟩ := run_lift.mp hlift
  exact hf a hx d b d' rest hrun' hd

theorem get_bind_settles {f : Draft → Drafting β} (hf : ∀ d, (f d).Settles o D) :
    (get >>= f).Settles o D :=
  fun d b d' rest hrun hd => hf d d b d' rest hrun hd

/-- Taking note of something that is neither a symbol nor a rule settles nothing. -/
theorem modify_settles {f : Draft → Draft} (hsymbols : ∀ d, (f d).symbols = d.symbols)
    (hrules : ∀ d, (f d).structural = d.structural ∧ (f d).lexical = d.lexical) :
    (modify f : Drafting PUnit).Settles o ∅ := by
  intro d a d' rest hrun hd
  obtain rfl := run_modify.mp hrun
  rw [Set.empty_union] at hd
  exact hd.of_eq (hsymbols d) (hrules d)

/-- A loop settles what its passes settle. -/
theorem forM_settles {xs : List β} {f : β → Drafting Unit} {D : β → Set (Level × SymbolId)}
    (hf : ∀ x ∈ xs, (f x).Settles o (D x)) : (xs.forM f).Settles o {x | ∃ y ∈ xs, x ∈ D y} := by
  induction xs with
  | nil => exact (pure_settles ()).mono fun x hx => by simp at hx
  | cons y ys ih =>
    rw [List.forall_mem_cons] at hf
    have hboth : (f y >>= fun _ => ys.forM f).Settles o (D y ∪ {x | ∃ y ∈ ys, x ∈ D y}) :=
      hf.1.bind fun _ => ih hf.2
    refine hboth.mono ?_
    rintro x ⟨z, hz, hx⟩
    rcases List.mem_cons.mp hz with rfl | hz
    · exact Or.inl hx
    · exact Or.inr ⟨z, hz, hx⟩

/-- A loop over what is not empty settles what all its passes settle. -/
theorem forM_settles_of_ne_nil {xs : List β} {f : β → Drafting Unit} (hne : xs ≠ [])
    (hf : ∀ x ∈ xs, (f x).Settles o D) : (xs.forM f).Settles o D := by
  obtain ⟨x, hx⟩ := List.exists_mem_of_ne_nil xs hne
  exact (forM_settles hf).mono fun y hy => ⟨x, hx, hy⟩

theorem forM_settles_empty {xs : List β} {f : β → Drafting Unit}
    (hf : ∀ x ∈ xs, (f x).Settles o ∅) : (xs.forM f).Settles o ∅ :=
  (forM_settles hf).mono (Set.empty_subset _)

theorem mapM_settles {xs : List β} {f : β → Drafting α} (hf : ∀ x ∈ xs, (f x).Settles o ∅) :
    (xs.mapM f).Settles o ∅ := by
  induction xs with
  | nil => exact pure_settles []
  | cons x xs ih =>
    rw [List.forall_mem_cons] at hf
    rw [List.mapM_cons]
    exact hf.1.bind_right fun a => (ih hf.2).bind_right fun as => pure_settles _

/-! ### Symbols and rules -/

theorem owes_of_addSymbol {name : String} {kind : SymbolKind} {offset : Nat} {d d' : Draft}
    {s : SymbolId} (hrun : (addSymbol name kind offset).run d = .ok (s, d')) (hd : d.Owes o D) :
    d'.Owes o (kind.debts s ∪ D) := by
  obtain ⟨rfl, rfl⟩ := Prod.mk.inj (Except.ok.inj hrun)
  refine hd.of_kinds ⟨rfl, rfl⟩ Set.subset_union_right fun s k level hs hk => ?_
  rw [Draft.kind?, Array.getElem?_push] at hs
  split at hs
  next heq =>
    obtain rfl : kind = k := by simpa using hs
    exact Or.inr (Or.inr (Or.inl ⟨hk, heq⟩))
  next => exact Or.inl hs

/-- A new symbol owes a rule on the level of its kind. -/
theorem addSymbol_bind_settles {name : String} {kind : SymbolKind} {offset : Nat}
    {f : SymbolId → Drafting β} (hf : ∀ s, (f s).Settles o (kind.debts s)) :
    (addSymbol name kind offset >>= f).Settles o ∅ := by
  intro d b d' rest hrun hd
  rw [Set.empty_union] at hd
  obtain ⟨s, e, hs, hrun'⟩ := run_bind.mp hrun
  exact hf s e b d' rest hrun' (owes_of_addSymbol hs hd)

/-- New symbols owe a rule each. -/
theorem addSymbols_bind_settles {xs : List α} {name : α → String} {kind : SymbolKind}
    {offset : Nat} {f : List SymbolId → Drafting β}
    (hf : ∀ ss, ss.length = xs.length → (f ss).Settles o {x | ∃ s ∈ ss, x ∈ kind.debts s}) :
    ((xs.mapM fun x => addSymbol (name x) kind offset) >>= f).Settles o ∅ := by
  intro d b d' rest hrun hd
  rw [Set.empty_union] at hd
  obtain ⟨ss, e, hss, hrun'⟩ := run_bind.mp hrun
  obtain ⟨hlength, he⟩ : ss.length = xs.length ∧
      e.Owes o ({x | ∃ s ∈ ss, x ∈ kind.debts s} ∪ rest) := by
    apply mapM_induction (P := fun xs ss e => ss.length = xs.length ∧
      e.Owes o ({x | ∃ s ∈ ss, x ∈ kind.debts s} ∪ rest)) hss
    · exact ⟨rfl, hd.mono Set.subset_union_right⟩
    · rintro ys bs y s e e' - ⟨hlength, he⟩ hs
      refine ⟨by simp [hlength], (owes_of_addSymbol hs he).mono ?_⟩
      rintro x (hx | ⟨s', hs', hx⟩ | hx)
      · exact Or.inl ⟨s, List.mem_append_right _ List.mem_cons_self, hx⟩
      · exact Or.inl ⟨s', List.mem_append_left _ hs', hx⟩
      · exact Or.inr hx
  exact hf ss hlength e b d' rest hrun' he

theorem mem_rules_of_addRule {level level' : Level} {r x : Rule} {d d' : Draft} {u : Unit}
    (hrun : (addRule level r).run d = .ok (u, d')) :
    x ∈ d'.rules level' ↔ x ∈ d.rules level' ∨ level' = level ∧ x = r := by
  obtain rfl := run_modify.mp hrun
  cases level <;> cases level' <;> simp [Draft.rules, Level.pick]

theorem symbols_of_addRule {level : Level} {r : Rule} {d d' : Draft} {u : Unit}
    (hrun : (addRule level r).run d = .ok (u, d')) : d'.symbols = d.symbols := by
  obtain rfl := run_modify.mp hrun
  cases level <;> rfl

/-- A rule settles the debt of its left symbol. -/
theorem addRule_settles (level : Level) {r : Rule} (hmask : r.mask.length = r.rhs.length) :
    (addRule level r).Settles o {(level, r.lhs)} := by
  intro d a d' rest hrun hd
  refine ⟨fun s k level' hs hk => ?_, fun level' x hx => ?_⟩
  · rw [Draft.kind?, symbols_of_addRule hrun] at hs
    rcases hd.rules s k level' hs hk with hname | (hdebt | hdebt) | ⟨x, hx, hlhs⟩
    · exact Or.inl hname
    · obtain ⟨rfl, rfl⟩ := Prod.mk.inj hdebt
      exact Or.inr (Or.inr ⟨r, (mem_rules_of_addRule hrun).mpr (Or.inr ⟨rfl, rfl⟩), rfl⟩)
    · exact Or.inr (Or.inl hdebt)
    · exact Or.inr (Or.inr ⟨x, (mem_rules_of_addRule hrun).mpr (Or.inl hx), hlhs⟩)
  · rcases (mem_rules_of_addRule hrun).mp hx with hx | ⟨-, rfl⟩
    · exact hd.masks level' x hx
    · exact hmask

theorem addPlain_settles (level : Level) (lhs : SymbolId) (rhs : List SymbolId) (name : String)
    (semantics : Semantics) (rank : Int) :
    (addPlain level lhs rhs name semantics rank).Settles o {(level, lhs)} :=
  addRule_settles level (by simp)

theorem addDeclared_settles (level : Level) (lhs : SymbolId) (rhs : List SymbolId)
    (name : String) (semantics : Semantics) (rank : Int) (offset : Nat) :
    (addDeclared level lhs rhs name semantics rank offset).Settles o {(level, lhs)} := by
  intro d a d' rest hrun hd
  rw [addDeclared] at hrun
  obtain ⟨_, _, hget, hrun⟩ := run_bind.mp hrun
  obtain ⟨rfl, rfl⟩ := run_get.mp hget
  split at hrun
  · exact absurd hrun run_refuse
  · obtain ⟨_, e, hset, hrun⟩ := run_bind.mp hrun
    obtain rfl := run_set.mp hset
    exact addPlain_settles level lhs rhs name semantics rank _ a d' rest hrun
      (hd.of_eq rfl ⟨rfl, rfl⟩)

/-! ### Elements -/

theorem characterSymbol_settles (cls : CharClass) (offset : Nat) :
    (characterSymbol cls offset).Settles o ∅ := by
  rw [characterSymbol]
  refine get_bind_settles fun d => ?_
  split
  · exact pure_settles _
  · refine addSymbol_bind_settles fun s => ?_
    rw [SymbolKind.debts_char]
    exact Settles.bind_right (modify_settles (fun _ => rfl) fun _ => ⟨rfl, rfl⟩)
      fun _ => pure_settles s

theorem characterSymbols_settles (t : Terminal) (offset : Nat) :
    (characterSymbols t offset).Settles o ∅ :=
  mapM_settles fun cls _ => characterSymbol_settles cls offset

theorem anonymousLexeme_settles (t : Terminal) (offset : Nat) :
    (anonymousLexeme t offset).Settles o ∅ := by
  rw [anonymousLexeme]
  refine get_bind_settles fun d => ?_
  split
  · exact pure_settles _
  · refine addSymbol_bind_settles fun s => ?_
    rw [SymbolKind.debts_eq_singleton rfl]
    refine Settles.bind_right (modify_settles (fun _ => rfl) fun _ => ⟨rfl, rfl⟩) fun _ => ?_
    refine (characterSymbols_settles t offset).bind_right fun rhs => ?_
    exact (addPlain_settles _ _ _ _ _ _).bind_left fun _ => pure_settles s

/-- A name keeps its rules when it becomes a lexeme. -/
theorem namedLexeme_settles (name : String) (offset : Nat) :
    (namedLexeme o name offset).Settles o ∅ := by
  rw [namedLexeme]
  split
  next id hid =>
    refine Settles.bind_right (E := ∅) ?_ fun _ => pure_settles id
    intro d a d' rest hrun hd
    obtain rfl := run_modify.mp hrun
    rw [Set.empty_union] at hd
    refine hd.of_kinds ⟨rfl, rfl⟩ (Set.Subset.refl rest) fun s k level hs _ => ?_
    by_cases heq : id = s
    · exact Or.inr (Or.inl (heq ▸ Outline.isName_of_lexicalId? hid))
    · rw [Draft.kind?, Array.getElem?_modify, if_neg heq] at hs
      exact Or.inl hs
  next => exact refuse_settles _ _

theorem useLexeme_settles (s : SymbolId) : (useLexeme s).Settles o ∅ :=
  Settles.bind_right (modify_settles (fun _ => rfl) fun _ => ⟨rfl, rfl⟩) fun _ => pure_settles s

theorem structuralSymbol_settles (raw : String) (offset : Nat) :
    (structuralSymbol o raw offset).Settles o ∅ := by
  rw [structuralSymbol]
  refine lift_bind_settles fun element _ => ?_
  split
  · split
    · exact pure_settles _
    · exact (namedLexeme_settles _ _).bind_right useLexeme_settles
  · exact (anonymousLexeme_settles _ _).bind_right useLexeme_settles

theorem structuralSymbols_settles (items : List RhsItem) :
    (structuralSymbols o items).Settles o ∅ :=
  mapM_settles fun item _ => structuralSymbol_settles item.element item.offset

theorem discard_settles (raw : String) (offset : Nat) : (discard o raw offset).Settles o ∅ := by
  have hsymbol : (discardSymbol o raw offset).Settles o ∅ := by
    rw [discardSymbol]
    refine lift_bind_settles fun element _ => ?_
    split
    · split
      · exact refuse_settles _ _
      · exact namedLexeme_settles _ _
    · exact anonymousLexeme_settles _ _
  exact hsymbol.bind_right fun s => modify_settles (fun _ => rfl) fun _ => ⟨rfl, rfl⟩

/-! ### Structural statements -/

theorem plainAlternative_settles (lhs : SymbolId) (name : String) (alt : Alternative) :
    (plainAlternative o lhs name alt).Settles o {(.structural, lhs)} := by
  rw [plainAlternative]
  refine lift_bind_settles fun adverbs _ => ?_
  exact (structuralSymbols_settles alt.rhs).bind_right fun rhs => addDeclared_settles _ _ _ _ _ _ _

theorem separator_settles (written : Option (String × Nat)) :
    (written.mapM fun x => structuralSymbol o x.1 x.2).Settles o ∅ := by
  cases written with
  | none => exact pure_settles none
  | some x => exact (structuralSymbol_settles x.1 x.2).bind_right fun s => pure_settles _

theorem sequence_settles (lhs : SymbolId) (name : String) (item : RhsItem) (alt : Alternative) :
    (sequence o lhs name item alt).Settles o ∅ := by
  rw [sequence_eq]
  refine lift_bind_settles fun adverbs _ => ?_
  refine (structuralSymbol_settles _ _).bind_right fun element => ?_
  refine (separator_settles _).bind_right fun separator => ?_
  refine addSymbol_bind_settles fun items => ?_
  rw [SymbolKind.debts_eq_singleton rfl]
  let p : SequenceParts := ⟨adverbs, element, separator, items⟩
  have hrules := forM_settles fun r (hr : r ∈ p.rules lhs name item.quantifier) =>
    addRule_settles (o := o) .structural (SequenceParts.length_mask_of_mem_rules hr)
  refine hrules.mono ?_
  -- The first rule of the items settles their debt.
  rintro _ rfl
  exact ⟨_, SequenceParts.mem_rules_iff.mpr (Or.inl rfl), rfl⟩

theorem alternative_settles (lhs : SymbolId) (name : String) (alone : Bool) (alt : Alternative) :
    (alternative o lhs name alone alt).Settles o ∅ := by
  rw [alternative]
  split
  · exact (plainAlternative_settles lhs name alt).mono (Set.empty_subset _)
  · split
    · exact sequence_settles lhs name _ alt
    · exact refuse_settles _ _

theorem tierAlternative_settles (lhs : SymbolId) (name : String) (current tighter : SymbolId)
    (alt : Alternative) :
    (tierAlternative o lhs name current tighter alt).Settles o {(.structural, current)} := by
  rw [tierAlternative]
  split
  · exact refuse_settles _ _
  · refine lift_bind_settles fun adverbs _ => ?_
    refine Settles.bind_right (mapM_settles fun item _ => lift_settles _) fun elements => ?_
    refine (structuralSymbols_settles alt.rhs).bind_right fun rhs => ?_
    exact addDeclared_settles _ _ _ _ _ _ _

/-- Every tier has an alternative, so that the symbols of all tiers get rules. -/
theorem precedence_settles (lhs : SymbolId) (name : String) {tiers : List (List Alternative)}
    (htiers : ∀ alternatives ∈ tiers, alternatives ≠ []) :
    (precedence o lhs name tiers).Settles o ∅ := by
  rw [precedence_eq]
  refine get_bind_settles fun d => ?_
  refine addSymbols_bind_settles fun levels hlevels => ?_
  have hchain : ((Draft.chainRules lhs name levels).forM (addRule .structural)).Settles o ∅ := by
    refine Settles.mono (forM_settles fun r hr => addRule_settles .structural ?_)
      (Set.empty_subset _)
    obtain ⟨s, -, tier, -, rfl⟩ := Draft.exists_of_mem_chainRules hr
    rfl
  refine hchain.bind_right fun _ => ?_
  refine Settles.mono (forM_settles fun x hx =>
    forM_settles_of_ne_nil (htiers _ (List.of_mem_zip hx).1) fun alt _ =>
      tierAlternative_settles lhs name x.2.1 x.2.2 alt) ?_
  rintro ⟨level, x⟩ ⟨s, hs, hx⟩
  rw [SymbolKind.debts_eq_singleton rfl] at hx
  obtain ⟨rfl, rfl⟩ := Prod.mk.inj hx
  rw [List.length_range] at hlevels
  have hpairs : (levels.zip (levels.take 1 ++ levels)).map Prod.fst = levels :=
    List.map_fst_zip (by simp)
  have htiers' : (tiers.zip (levels.zip (levels.take 1 ++ levels))).map Prod.snd =
      levels.zip (levels.take 1 ++ levels) :=
    List.map_snd_zip (by simp [hlevels])
  rw [← hpairs, ← htiers', List.map_map, List.mem_map] at hs
  obtain ⟨y, hy, rfl⟩ := hs
  exact ⟨y, hy, rfl⟩

theorem structural_settles (spelling : String) {tiers : List (List Alternative)}
    (htiers : ∀ alternatives ∈ tiers, alternatives ≠ []) (offset : Nat) :
    (structural o spelling tiers offset).Settles o ∅ := by
  rw [structural]
  refine lift_bind_settles fun name _ => ?_
  split
  · exact pure_settles ()
  · split
    · exact forM_settles_empty fun alt _ => alternative_settles _ name _ alt
    · exact precedence_settles _ name htiers

/-! ### Lexical statements -/

/-- The symbol of an element with a quantifier has a rule for the element or for nothing. -/
theorem quantified_settles (name : String) (body : List SymbolId) (quantifier : Quantifier)
    (offset : Nat) : (quantified name body quantifier offset).Settles o ∅ := by
  rw [quantified]
  refine get_bind_settles fun d => ?_
  refine addSymbol_bind_settles fun s => ?_
  have hne : quantifier.alternatives s body ≠ [] := by
    cases quantifier <;> simp [Quantifier.alternatives]
  rw [SymbolKind.debts_eq_singleton rfl]
  exact Settles.bind_left (forM_settles_of_ne_nil hne fun rhs _ =>
    addPlain_settles _ _ _ _ _ _) fun _ => pure_settles s

theorem lexicalBody_settles (lhs : SymbolId) (item : RhsItem) :
    (lexicalBody o lhs item).Settles o ∅ := by
  rw [lexicalBody]
  refine lift_bind_settles fun element _ => ?_
  split
  · exact characterSymbols_settles _ _
  · split
    · exact refuse_settles _ _
    · split
      · exact refuse_settles _ _
      · exact Settles.bind_right (modify_settles (fun _ => rfl) fun _ => ⟨rfl, rfl⟩)
          fun _ => pure_settles _

theorem lexicalItem_settles (lhs : SymbolId) (name : String) (item : RhsItem) :
    (lexicalItem o lhs name item).Settles o ∅ := by
  rw [lexicalItem]
  refine (lexicalBody_settles lhs item).bind_right fun body => ?_
  split
  · exact pure_settles body
  · exact (quantified_settles _ _ _ _).bind_right fun s => pure_settles _

theorem lexicalAlternative_settles (lhs : SymbolId) (name : String) (alt : Alternative) :
    (lexicalAlternative o lhs name alt).Settles o ∅ := by
  rw [lexicalAlternative]
  split
  · exact refuse_settles _ _
  · refine Settles.bind_right (mapM_settles fun item _ => lexicalItem_settles lhs name item)
      fun parts => ?_
    exact (addDeclared_settles _ _ _ _ _ _ _).mono (Set.empty_subset _)

theorem lexical_settles (spelling : String) (alternatives : List Alternative) (offset : Nat) :
    (lexical o spelling alternatives offset).Settles o ∅ := by
  rw [lexical]
  refine lift_bind_settles fun name _ => ?_
  split
  · exact pure_settles ()
  · exact forM_settles_empty fun alt _ => lexicalAlternative_settles _ name alt

/-! ### All statements -/

/-- Statements that have alternatives wherever they need some leave no debts. -/
theorem statements_settles {ss : List Statement} (hss : ∀ s ∈ ss, s.Inhabited) :
    (statements o ss).Settles o ∅ := by
  rw [statements]
  refine (forM_settles_empty fun s _ => ?_).bind_right fun _ =>
    (forM_settles_empty fun s hs => ?_).bind_right fun _ => forM_settles_empty fun s _ => ?_
  · split
    · exact discard_settles _ _
    · exact pure_settles ()
  · split
    · exact structural_settles _ (hss _ hs).2 _
    · exact pure_settles ()
  · split
    · exact lexical_settles _ _ _
    · exact pure_settles ()

end Drafting

end Scannerless
