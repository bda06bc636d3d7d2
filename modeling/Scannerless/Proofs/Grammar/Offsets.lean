import Scannerless.Definition
import Scannerless.Proofs.Grammar.Growth

/-!
# Offsets do not matter

Statements carry the offsets they were written at. These say where faults are, and nothing
else: statements that are the same up to offsets define the same grammar, or they are refused
for the same cause.

## Main definitions

- `Statement.placeless` — a statement without its offsets, and so on for its parts, for
  outlines and for drafts.
- `Agree` — two outcomes belong together, or both are faults with one cause.
- `Drafting.Agree` — two steps do, from any draft and from the draft without offsets.

## Main statements

- `Outline.agree_ofStatements`, `Drafting.agree_statements`, `Draft.agree_finish` — what each
  part of the lowering makes of statements without their offsets.
- `Grammar.agree_ofStatements` — statements that are the same up to offsets define the same.
-/

namespace Scannerless

/-! ### Without offsets -/

def RhsItem.placeless (i : RhsItem) : RhsItem :=
  { i with offset := 0 }

def Adverb.placeless (a : Adverb) : Adverb :=
  { a with offset := 0 }

def Alternative.placeless (a : Alternative) : Alternative :=
  ⟨a.rhs.map RhsItem.placeless, a.adverbs.map Adverb.placeless, 0⟩

/-- A statement without its offsets. -/
def Statement.placeless : Statement → Statement
  | .start symbol _ => .start symbol 0
  | .default adverbs _ => .default (adverbs.map Adverb.placeless) 0
  | .discard element _ => .discard element 0
  | .lexemeDefault adverbs _ => .lexemeDefault (adverbs.map Adverb.placeless) 0
  | .structural lhs tiers _ => .structural lhs (tiers.map (·.map Alternative.placeless)) 0
  | .lexical lhs alternatives _ => .lexical lhs (alternatives.map Alternative.placeless) 0

def RuleAdverbs.placeless (r : RuleAdverbs) : RuleAdverbs :=
  { r with separator := r.separator.map fun x => (x.1, 0) }

def Outline.placeless (o : Outline) : Outline :=
  { o with
    structural := o.structural.map fun x => (x.1, 0)
    lexical := o.lexical.map fun x => (x.1, 0)
    start := o.start.map fun x => (x.1, 0) }

def Draft.placeless (d : Draft) : Draft :=
  { d with offsets := d.offsets.map fun _ => 0 }

/-! ### Outcomes -/

/-- Two outcomes belong together, or both are faults with one cause. -/
inductive Agree {α β : Type} (R : α → β → Prop) : Except Fault α → Except Fault β → Prop where
  | ok {a : α} {b : β} (h : R a b) : Agree R (.ok a) (.ok b)
  | error {e f : Fault} (h : e.cause = f.cause) : Agree R (.error e) (.error f)

namespace Agree

variable {α β γ δ : Type} {R : α → β → Prop} {S : γ → δ → Prop} {x : Except Fault α}
  {y : Except Fault β}

theorem bind {f : α → Except Fault γ} {g : β → Except Fault δ} (h : Agree R x y)
    (hf : ∀ a b, R a b → Agree S (f a) (g b)) : Agree S (x >>= f) (y >>= g) := by
  cases h with
  | ok h => exact hf _ _ h
  | error h => exact .error h

theorem map {f : α → γ} {g : β → δ} (h : Agree R x y) (hf : ∀ a b, R a b → S (f a) (g b)) :
    Agree S (x.map f) (y.map g) := by
  cases h with
  | ok h => exact .ok (hf _ _ h)
  | error h => exact .error h

/-- Steps over a list, one of them for each element without its offsets. -/
theorem foldlM {ι κ : Type} {erase : ι → κ} {f : α → ι → Except Fault α}
    {g : β → κ → Except Fault β} (hf : ∀ a b i, R a b → Agree R (f a i) (g b (erase i)))
    (is : List ι) {a : α} {b : β} (h : R a b) :
    Agree R (is.foldlM f a) ((is.map erase).foldlM g b) := by
  induction is generalizing a b with
  | nil => exact .ok h
  | cons i is ih =>
    rw [List.map_cons, List.foldlM_cons, List.foldlM_cons]
    exact (hf a b i h).bind fun a b hab => ih hab

end Agree

/-! ### Adverbs -/

theorem Element.agree_decodeAt (raw : String) (offset : Nat) :
    Agree Eq (decodeAt raw offset) (decodeAt raw 0) := by
  rw [decodeAt, decodeAt]
  cases decode raw with
  | ok e => exact .ok rfl
  | error cause => exact .error rfl

theorem Element.agree_decodeNameAt (raw : String) (offset : Nat) :
    Agree Eq (decodeNameAt raw offset) (decodeNameAt raw 0) := by
  have h := agree_decodeAt raw offset
  rw [decodeNameAt, decodeNameAt]
  generalize decodeAt raw offset = x, decodeAt raw 0 = y at h
  cases h with
  | error h => exact .error h
  | @ok e e' h =>
    subst h
    cases e with
    | name symbol => exact .ok rfl
    | terminal t => exact .error rfl

theorem repeatedAdverb?_placeless (names : List String) (adverbs : List Adverb) :
    repeatedAdverb? names (adverbs.map Adverb.placeless) =
      (repeatedAdverb? names adverbs).map Adverb.placeless := by
  induction adverbs generalizing names with
  | nil => rfl
  | cons a adverbs ih =>
    rw [List.map_cons, repeatedAdverb?, repeatedAdverb?, ih]
    change (if names.contains a.name then _ else _) = _
    split <;> rfl

theorem agree_requireDistinct (adverbs : List Adverb) :
    Agree (fun _ _ => True) (requireDistinct adverbs)
      (requireDistinct (adverbs.map Adverb.placeless)) := by
  rw [requireDistinct, requireDistinct, repeatedAdverb?_placeless]
  cases repeatedAdverb? [] adverbs with
  | none => exact .ok trivial
  | some a => exact .error rfl

theorem Adverb.agree_flag (a : Adverb) : Agree Eq a.flag a.placeless.flag := by
  rw [flag, flag]
  change Agree Eq _ (if a.value == "0" then _ else if a.value == "1" then _ else _)
  split
  · exact .ok rfl
  · split
    · exact .ok rfl
    · exact .error rfl

theorem Adverb.agree_associativity (a : Adverb) :
    Agree Eq a.associativity a.placeless.associativity := by
  rw [associativity, associativity]
  change Agree Eq _ (if a.value == "left" then _ else if a.value == "right" then _
    else if a.value == "group" then _ else _)
  split
  · exact .ok rfl
  · split
    · exact .ok rfl
    · split
      · exact .ok rfl
      · exact .error rfl

theorem Adverb.agree_integer (a : Adverb) : Agree Eq a.integer a.placeless.integer := by
  have hvalue : a.placeless.value = a.value := rfl
  rw [integer, integer, hvalue]
  cases Decimal.readInteger? 32 a.value.toList with
  | some n => exact .ok rfl
  | none => exact .error rfl

namespace RuleAdverbs

theorem agree_add (sequence : Bool) (r : RuleAdverbs) (a : Adverb) :
    Agree (fun r r' => r' = r.placeless) (add sequence r a)
      (add sequence r.placeless a.placeless) := by
  have hname : a.placeless.name = a.name := rfl
  rw [add, add, hname]
  split
  · exact .error rfl
  split
  · exact .ok rfl
  split
  · exact a.agree_associativity.map fun _ _ h => h ▸ rfl
  split
  · exact a.agree_integer.map fun _ _ h => h ▸ rfl
  split
  · exact .ok rfl
  split
  · exact a.agree_flag.map fun _ _ h => h ▸ rfl
  split
  · exact a.agree_flag.map fun _ _ h => h ▸ rfl
  · exact .error rfl

theorem agree_read (sequence : Bool) (adverbs : List Adverb) :
    Agree (fun r r' => r' = r.placeless) (read sequence adverbs)
      (read sequence (adverbs.map Adverb.placeless)) := by
  refine (agree_requireDistinct adverbs).bind fun _ _ _ => ?_
  refine Agree.foldlM (fun r r' a h => ?_) adverbs rfl
  subst h
  exact agree_add sequence r a

end RuleAdverbs

theorem agree_readDefaultAction (adverbs : List Adverb) (offset : Nat) :
    Agree Eq (readDefaultAction adverbs offset)
      (readDefaultAction (adverbs.map Adverb.placeless) 0) := by
  refine (agree_requireDistinct adverbs).bind fun _ _ _ => ?_
  match adverbs with
  | [] => exact .error rfl
  | [a] =>
    change Agree Eq (if a.name == "action" then _ else _) (if a.name == "action" then _ else _)
    split
    · exact .ok rfl
    · exact .error rfl
  | _ :: _ :: _ => exact .error rfl

theorem agree_readLongestMatch (adverbs : List Adverb) (offset : Nat) :
    Agree Eq (readLongestMatch adverbs offset)
      (readLongestMatch (adverbs.map Adverb.placeless) 0) := by
  refine (agree_requireDistinct adverbs).bind fun _ _ _ => ?_
  match adverbs with
  | [] => exact .error rfl
  | [a] =>
    change Agree Eq (if a.name == "latm" then _ else _) (if a.name == "latm" then _ else _)
    split
    · exact a.agree_flag
    · exact .error rfl
  | _ :: _ :: _ => exact .error rfl

/-! ### Outlines -/

namespace Outline

variable (o : Outline)

theorem isStructural_placeless (name : String) :
    o.placeless.isStructural name = o.isStructural name := by
  simp [isStructural, placeless, Function.comp_def]

theorem isLexical_placeless (name : String) :
    o.placeless.isLexical name = o.isLexical name := by
  simp [isLexical, placeless, Function.comp_def]

theorem structuralId?_placeless (name : String) :
    o.placeless.structuralId? name = o.structuralId? name := by
  simp [structuralId?, placeless, List.findIdx?_map, Function.comp_def]

theorem lexicalId?_placeless (name : String) :
    o.placeless.lexicalId? name = o.lexicalId? name := by
  simp [lexicalId?, placeless, List.findIdx?_map, Function.comp_def]

theorem agree_addStructural (name : String) (tiers : List (List Alternative)) (offset : Nat) :
    Agree (fun o o' => o' = o.placeless) (o.addStructural name tiers offset)
      (o.placeless.addStructural name (tiers.map (·.map Alternative.placeless)) 0) := by
  have hempty : ((tiers.map (·.map Alternative.placeless)).isEmpty ||
      (tiers.map (·.map Alternative.placeless)).any List.isEmpty) =
      (tiers.isEmpty || tiers.any List.isEmpty) := by
    simp [Function.comp_def]
  rw [addStructural, addStructural, hempty, List.length_map, isStructural_placeless]
  change Agree _ _ (if _ then _ else if (_ || o.prioritized.contains name) && _ then _ else _)
  split
  · exact .error rfl
  split
  · exact .error rfl
  · refine .ok ?_
    by_cases hdefined : o.isStructural name = true
    · simp [placeless, hdefined]
    · simp [placeless, hdefined]

theorem agree_addLexical (name : String) (alternatives : List Alternative) (offset : Nat) :
    Agree (fun o o' => o' = o.placeless) (o.addLexical name alternatives offset)
      (o.placeless.addLexical name (alternatives.map Alternative.placeless) 0) := by
  rw [addLexical, addLexical, List.isEmpty_map, isLexical_placeless]
  split
  · exact .error rfl
  · refine .ok ?_
    by_cases hdefined : o.isLexical name = true
    · simp [placeless, hdefined]
    · simp [placeless, hdefined]

theorem agree_add (s : Statement) :
    Agree (fun o o' => o' = o.placeless) (o.add s) (o.placeless.add s.placeless) := by
  cases s with
  | structural lhs tiers offset =>
    refine (Element.agree_decodeNameAt lhs offset).bind fun name _ h => ?_
    exact h ▸ o.agree_addStructural name tiers offset
  | lexical lhs alternatives offset =>
    refine (Element.agree_decodeNameAt lhs offset).bind fun name _ h => ?_
    exact h ▸ o.agree_addLexical name alternatives offset
  | start symbol offset =>
    simp only [add, Statement.placeless, placeless, Option.isSome_map]
    split
    · exact .error rfl
    · exact .ok rfl
  | default adverbs offset =>
    simp only [add, Statement.placeless]
    change Agree _ _ (if o.defaultAction.isSome then _ else _)
    split
    · exact .error rfl
    · exact (agree_readDefaultAction adverbs offset).map fun _ _ h => h ▸ rfl
  | lexemeDefault adverbs offset =>
    simp only [add, Statement.placeless]
    change Agree _ _ (if o.longestMatch.isSome then _ else _)
    split
    · exact .error rfl
    · exact (agree_readLongestMatch adverbs offset).map fun _ _ h => h ▸ rfl
  | discard element offset => exact .ok rfl

theorem agree_requireOneLevel :
    Agree (fun _ _ => True) o.requireOneLevel o.placeless.requireOneLevel := by
  have hfind : o.placeless.lexical.find? (fun entry => o.placeless.isStructural entry.1) =
      (o.lexical.find? fun entry => o.isStructural entry.1).map fun x => (x.1, 0) := by
    simp only [isStructural_placeless]
    simp only [placeless, List.find?_map, Function.comp_def]
  rw [requireOneLevel, requireOneLevel, hfind]
  cases o.lexical.find? fun entry => o.isStructural entry.1 with
  | none => exact .ok trivial
  | some entry => exact .error rfl

/-- The outline of statements without their offsets. -/
theorem agree_ofStatements (ss : List Statement) :
    Agree (fun o o' => o' = o.placeless) (ofStatements ss)
      (ofStatements (ss.map Statement.placeless)) := by
  have hfold : Agree (fun o o' => o' = o.placeless) (ss.foldlM add empty)
      ((ss.map Statement.placeless).foldlM add empty) := by
    refine Agree.foldlM (fun o o' s h => ?_) ss rfl
    subst h
    exact o.agree_add s
  refine hfold.bind fun o o' h => ?_
  subst h
  exact o.agree_requireOneLevel.bind fun _ _ _ => .ok rfl

end Outline

/-! ### Drafts -/

theorem Draft.offset_placeless (d : Draft) (s : SymbolId) : d.placeless.offset s = 0 := by
  rw [offset, placeless, Array.getD_eq_getD_getElem?, Array.getElem?_map]
  cases d.offsets[s]? <;> rfl

namespace Drafting

variable {α β γ δ : Type} {R : α → β → Prop} {S : γ → δ → Prop}

/-- Two steps belong together, whatever the draft is: one goes on from it, and the other from
    the draft without its offsets. -/
def Agree (R : α → β → Prop) (p : Drafting α) (q : Drafting β) : Prop :=
  ∀ d : Draft, Scannerless.Agree (fun x y => R x.1 y.1 ∧ y.2 = x.2.placeless) (p.run d)
    (q.run d.placeless)

namespace Agree

theorem pure {a : α} {b : β} (h : R a b) :
    Agree R (Pure.pure a : Drafting α) (Pure.pure b) :=
  fun _ => .ok ⟨h, rfl⟩

theorem bind {p : Drafting α} {q : Drafting β} {f : α → Drafting γ} {g : β → Drafting δ}
    (h : Agree R p q) (hf : ∀ a b, R a b → Agree S (f a) (g b)) : Agree S (p >>= f) (q >>= g) := by
  intro d
  rw [StateT.run_bind, StateT.run_bind]
  refine (h d).bind fun x y hxy => ?_
  rw [hxy.2]
  exact hf _ _ hxy.1 x.2

theorem of_get : Agree (fun d e => e = d.placeless) (get : Drafting Draft) get :=
  fun _ => .ok ⟨rfl, rfl⟩

theorem of_set {d e : Draft} (h : e = d.placeless) :
    Agree (fun _ _ => True) (set d : Drafting PUnit) (set e) :=
  fun _ => .ok ⟨trivial, h⟩

theorem of_modify {f : Draft → Draft} (h : ∀ d, f d.placeless = (f d).placeless) :
    Agree (fun _ _ => True) (modify f : Drafting PUnit) (modify f) :=
  fun d => .ok ⟨trivial, h d⟩

theorem refuse (cause : Cause) (offset offset' : Nat) :
    Agree R (Drafting.refuse cause offset) (Drafting.refuse cause offset') :=
  fun _ => .error rfl

theorem lift {x : Except Fault α} {y : Except Fault β} (h : Scannerless.Agree R x y) :
    Agree R (liftM x : Drafting α) (liftM y) := by
  intro d
  cases h with
  | ok h => exact .ok ⟨h, rfl⟩
  | error h => exact .error h

/-- A loop over the elements of a list, and one over these without their offsets. -/
theorem forM_map {ι κ : Type} (e : ι → κ) {f : ι → Drafting Unit} {g : κ → Drafting Unit}
    (hf : ∀ i, Agree (fun _ _ => True) (f i) (g (e i))) (is : List ι) :
    Agree (fun _ _ => True) (is.forM f) ((is.map e).forM g) := by
  induction is with
  | nil => exact .pure trivial
  | cons i is ih => exact (hf i).bind fun _ _ _ => ih

theorem forM {ι : Type} {f g : ι → Drafting Unit}
    (hf : ∀ i, Agree (fun _ _ => True) (f i) (g i)) (is : List ι) :
    Agree (fun _ _ => True) (is.forM f) (is.forM g) := by
  have h := forM_map id hf is
  rwa [List.map_id] at h

theorem mapM {ι : Type} {f g : ι → Drafting α} (hf : ∀ i, Agree Eq (f i) (g i)) (is : List ι) :
    Agree Eq (is.mapM f) (is.mapM g) := by
  induction is with
  | nil => exact .pure rfl
  | cons i is ih =>
    rw [List.mapM_cons, List.mapM_cons]
    refine (hf i).bind fun a b hab => ih.bind fun as bs habs => .pure ?_
    rw [hab, habs]

end Agree

variable (o : Outline)

theorem agree_addSymbol (name : String) (kind : SymbolKind) (offset : Nat) :
    Agree Eq (addSymbol name kind offset) (addSymbol name kind 0) := by
  refine fun d => .ok ⟨rfl, ?_⟩
  simp [Draft.placeless]

theorem agree_characterSymbol (cls : CharClass) (offset : Nat) :
    Agree Eq (characterSymbol cls offset) (characterSymbol cls 0) := by
  refine Agree.of_get.bind fun d e h => ?_
  subst h
  have hcharacters : d.placeless.characters = d.characters := rfl
  rw [hcharacters]
  cases d.characters.lookup cls.spelling with
  | some id => exact .pure rfl
  | none =>
    refine (agree_addSymbol cls.spelling (.char cls) offset).bind fun id _ h => ?_
    subst h
    exact Agree.bind (.of_modify fun _ => rfl) fun _ _ _ => .pure rfl

theorem agree_characterSymbols (t : Terminal) (offset : Nat) :
    Agree Eq (characterSymbols t offset) (characterSymbols t 0) :=
  .mapM (fun cls => agree_characterSymbol cls offset) t.classes

theorem agree_addRule (level : Level) (r : Rule) :
    Agree (fun _ _ => True) (addRule level r) (addRule level r) :=
  .of_modify fun d => by cases level <;> rfl

theorem agree_addPlain (level : Level) (lhs : SymbolId) (rhs : List SymbolId) (name : String)
    (semantics : Semantics) (rank : Int) :
    Agree (fun _ _ => True) (addPlain level lhs rhs name semantics rank)
      (addPlain level lhs rhs name semantics rank) :=
  agree_addRule level _

theorem agree_addDeclared (level : Level) (lhs : SymbolId) (rhs : List SymbolId) (name : String)
    (semantics : Semantics) (rank : Int) (offset : Nat) :
    Agree (fun _ _ => True) (addDeclared level lhs rhs name semantics rank offset)
      (addDeclared level lhs rhs name semantics rank 0) := by
  refine Agree.of_get.bind fun d e h => ?_
  subst h
  change Agree _ _ (if d.declared.contains (level, lhs, rhs) then _ else _)
  split
  · exact .refuse _ _ _
  · exact (Agree.of_set rfl).bind fun _ _ _ => agree_addPlain level lhs rhs name semantics rank

theorem agree_anonymousLexeme (t : Terminal) (offset : Nat) :
    Agree Eq (anonymousLexeme t offset) (anonymousLexeme t 0) := by
  refine Agree.of_get.bind fun d e h => ?_
  subst h
  have hanonymous : d.placeless.anonymous = d.anonymous := rfl
  rw [hanonymous]
  cases d.anonymous.lookup t.spelling with
  | some id => exact .pure rfl
  | none =>
    refine (agree_addSymbol t.spelling .lexeme offset).bind fun id _ h => ?_
    subst h
    refine Agree.bind (.of_modify fun _ => rfl) fun _ _ _ => ?_
    refine (agree_characterSymbols t offset).bind fun rhs _ h => ?_
    subst h
    exact (agree_addPlain _ _ _ _ _ _).bind fun _ _ _ => .pure rfl

theorem agree_namedLexeme (name : String) (offset : Nat) :
    Agree Eq (namedLexeme o name offset) (namedLexeme o.placeless name 0) := by
  rw [namedLexeme, namedLexeme, Outline.lexicalId?_placeless]
  cases o.lexicalId? name with
  | none => exact .refuse _ _ _
  | some id => exact Agree.bind (.of_modify fun _ => rfl) fun _ _ _ => .pure rfl

theorem agree_useLexeme (id : SymbolId) : Agree Eq (useLexeme id) (useLexeme id) :=
  Agree.bind (.of_modify fun _ => rfl) fun _ _ _ => .pure rfl

theorem agree_structuralSymbol (raw : String) (offset : Nat) :
    Agree Eq (structuralSymbol o raw offset) (structuralSymbol o.placeless raw 0) := by
  refine (Agree.lift (Element.agree_decodeAt raw offset)).bind fun e _ h => ?_
  subst h
  cases e with
  | name name =>
    simp only [Outline.structuralId?_placeless]
    cases o.structuralId? name with
    | some id => exact .pure rfl
    | none => exact (agree_namedLexeme o name offset).bind fun id _ h => h ▸ agree_useLexeme id
  | terminal t => exact (agree_anonymousLexeme t offset).bind fun id _ h => h ▸ agree_useLexeme id

theorem agree_structuralSymbols (items : List RhsItem) :
    Agree Eq (structuralSymbols o items)
      (structuralSymbols o.placeless (items.map RhsItem.placeless)) := by
  have hstep (item : RhsItem) : Agree Eq (structuralSymbol o item.element item.offset)
      (structuralSymbol o.placeless item.placeless.element item.placeless.offset) :=
    agree_structuralSymbol o item.element item.offset
  rw [structuralSymbols, structuralSymbols, List.mapM_map]
  exact .mapM hstep items

theorem agree_discard (raw : String) (offset : Nat) :
    Agree (fun _ _ => True) (discard o raw offset) (discard o.placeless raw 0) := by
  have hsymbol : Agree Eq (discardSymbol o raw offset) (discardSymbol o.placeless raw 0) := by
    refine (Agree.lift (Element.agree_decodeAt raw offset)).bind fun e _ h => ?_
    subst h
    cases e with
    | name name =>
      simp only [Outline.isStructural_placeless]
      split
      · exact .refuse _ _ _
      · exact agree_namedLexeme o name offset
    | terminal t => exact agree_anonymousLexeme t offset
  refine hsymbol.bind fun id _ h => ?_
  subst h
  exact .of_modify fun _ => rfl

/-! ### Structural statements -/

theorem agree_plainAlternative (lhs : SymbolId) (name : String) (alt : Alternative) :
    Agree (fun _ _ => True) (plainAlternative o lhs name alt)
      (plainAlternative o.placeless lhs name alt.placeless) := by
  refine (Agree.lift (RuleAdverbs.agree_read false alt.adverbs)).bind fun adverbs _ h => ?_
  subst h
  refine (agree_structuralSymbols o alt.rhs).bind fun rhs _ h => ?_
  subst h
  exact agree_addDeclared _ _ _ _ _ _ _

theorem agree_separator (separator : Option (String × Nat)) :
    Agree Eq (separator.mapM fun x => structuralSymbol o x.1 x.2)
      ((separator.map fun x => (x.1, 0)).mapM fun x => structuralSymbol o.placeless x.1 x.2) := by
  cases separator with
  | none => exact .pure rfl
  | some x => exact (agree_structuralSymbol o x.1 x.2).bind fun id _ h => .pure (h ▸ rfl)

theorem agree_sequence (lhs : SymbolId) (name : String) (item : RhsItem) (alt : Alternative) :
    Agree (fun _ _ => True) (sequence o lhs name item alt)
      (sequence o.placeless lhs name item.placeless alt.placeless) := by
  refine (Agree.lift (RuleAdverbs.agree_read true alt.adverbs)).bind fun adverbs _ h => ?_
  subst h
  refine (agree_structuralSymbol o item.element item.offset).bind fun element _ h => ?_
  subst h
  refine (agree_separator o adverbs.separator).bind fun separator _ h => ?_
  subst h
  refine (agree_addSymbol _ .nonterminal alt.offset).bind fun items _ h => ?_
  subst h
  refine (agree_addPlain _ _ _ _ _ _).bind fun _ _ _ => ?_
  have hlast : Agree (fun _ _ => True)
      (if item.quantifier = .star then
        addPlain .structural lhs [] name (.apply adverbs.action) adverbs.rank else pure ())
      (if item.placeless.quantifier = .star then
        addPlain .structural lhs [] name (.apply adverbs.placeless.action)
          adverbs.placeless.rank else pure ()) := by
    change Agree _ _ (if item.quantifier = .star then _ else _)
    split
    · exact agree_addPlain _ _ _ _ _ _
    · exact .pure trivial
  cases separator with
  | none =>
    exact (agree_addPlain _ _ _ _ _ _).bind fun _ _ _ =>
      (agree_addPlain _ _ _ _ _ _).bind fun _ _ _ => hlast
  | some s =>
    refine (agree_addRule _ _).bind fun _ _ _ => (agree_addPlain _ _ _ _ _ _).bind fun _ _ _ => ?_
    change Agree _ (if adverbs.proper then _ else _) (if adverbs.proper then _ else _)
    split
    · exact hlast
    · exact (agree_addRule _ _).bind fun _ _ _ => hlast

/-- Whether an item has a quantifier does not depend on offsets. -/
theorem find?_quantified_placeless (items : List RhsItem) :
    (items.map RhsItem.placeless).find? (fun item => item.quantifier != .one) =
      (items.find? fun item => item.quantifier != .one).map RhsItem.placeless := by
  rw [List.find?_map]
  rfl

theorem agree_alternative (lhs : SymbolId) (name : String) (alone : Bool) (alt : Alternative) :
    Agree (fun _ _ => True) (alternative o lhs name alone alt)
      (alternative o.placeless lhs name alone alt.placeless) := by
  have hrhs : alt.placeless.rhs = alt.rhs.map RhsItem.placeless := rfl
  rw [alternative, alternative, hrhs, find?_quantified_placeless, List.length_map]
  cases alt.rhs.find? fun item => item.quantifier != .one with
  | none => exact agree_plainAlternative o lhs name alt
  | some item =>
    have hquantifier : item.placeless.quantifier = item.quantifier := rfl
    simp only [Option.map_some, hquantifier]
    split
    · exact agree_sequence o lhs name item alt
    · exact .refuse _ _ _

theorem agree_tierAlternative (lhs : SymbolId) (name : String) (current tighter : SymbolId)
    (alt : Alternative) :
    Agree (fun _ _ => True) (tierAlternative o lhs name current tighter alt)
      (tierAlternative o.placeless lhs name current tighter alt.placeless) := by
  have hrhs : alt.placeless.rhs = alt.rhs.map RhsItem.placeless := rfl
  rw [tierAlternative, tierAlternative, hrhs, find?_quantified_placeless]
  cases alt.rhs.find? fun item => item.quantifier != .one with
  | some item => exact .refuse _ _ _
  | none =>
    refine (Agree.lift (RuleAdverbs.agree_read false alt.adverbs)).bind fun adverbs _ h => ?_
    subst h
    have helement (item : RhsItem) : Agree Eq
        (liftM (Element.decodeAt item.element item.offset) : Drafting Element)
        (liftM (Element.decodeAt item.placeless.element item.placeless.offset)) :=
      .lift (Element.agree_decodeAt item.element item.offset)
    simp only [List.mapM_map]
    refine (Agree.mapM helement alt.rhs).bind fun elements _ h => ?_
    subst h
    refine (agree_structuralSymbols o alt.rhs).bind fun rhs _ h => ?_
    subst h
    exact agree_addDeclared _ _ _ _ _ _ _

theorem agree_precedence (lhs : SymbolId) (name : String) (tiers : List (List Alternative)) :
    Agree (fun _ _ => True) (precedence o lhs name tiers)
      (precedence o.placeless lhs name (tiers.map (·.map Alternative.placeless))) := by
  refine Agree.of_get.bind fun d e h => ?_
  subst h
  rw [List.length_map, d.offset_placeless]
  refine (Agree.mapM (fun p => agree_addSymbol _ _ _) _).bind fun levels _ h => ?_
  subst h
  have hloosest : Agree (fun _ _ => True)
      (levels.getLast?.forM fun loosest => addPlain .structural lhs [loosest] name .splice 0)
      (levels.getLast?.forM fun loosest => addPlain .structural lhs [loosest] name .splice 0) := by
    cases levels.getLast? with
    | none => exact .pure trivial
    | some loosest => exact agree_addPlain _ _ _ _ _ _
  refine hloosest.bind fun _ _ _ => ?_
  refine (Agree.forM (fun pair => agree_addPlain _ _ _ _ _ _) _).bind fun _ _ _ => ?_
  have htier (alternatives : List Alternative) (current tighter : SymbolId) :
      Agree (fun _ _ => True)
        (alternatives.forM (tierAlternative o lhs name current tighter))
        ((alternatives.map Alternative.placeless).forM
          (tierAlternative o.placeless lhs name current tighter)) :=
    .forM_map _ (agree_tierAlternative o lhs name current tighter) alternatives
  rw [List.zip_map_left]
  exact .forM_map _ (fun x => htier x.1 x.2.1 x.2.2) _

theorem agree_structural (spelling : String) (tiers : List (List Alternative)) (offset : Nat) :
    Agree (fun _ _ => True) (structural o spelling tiers offset)
      (structural o.placeless spelling (tiers.map (·.map Alternative.placeless)) 0) := by
  refine (Agree.lift (Element.agree_decodeNameAt spelling offset)).bind fun name _ h => ?_
  subst h
  simp only [Outline.structuralId?_placeless]
  cases o.structuralId? name with
  | none => exact .pure trivial
  | some lhs =>
    match tiers with
    | [] => exact agree_precedence o lhs name []
    | [alternatives] =>
      simp only [List.map_cons, List.map_nil, List.length_map]
      exact .forM_map _ (agree_alternative o lhs name _) alternatives
    | first :: second :: rest => exact agree_precedence o lhs name (first :: second :: rest)

/-! ### Lexical statements -/

theorem agree_quantified (name : String) (body : List SymbolId) (q : Quantifier) (offset : Nat) :
    Agree Eq (quantified name body q offset) (quantified name body q 0) := by
  refine Agree.of_get.bind fun d e h => ?_
  subst h
  refine (agree_addSymbol _ .lexical offset).bind fun id _ h => ?_
  subst h
  refine (Agree.forM (fun rhs => agree_addPlain _ _ _ _ _ _) _).bind fun _ _ _ => .pure rfl

theorem agree_lexicalBody (lhs : SymbolId) (item : RhsItem) :
    Agree Eq (lexicalBody o lhs item) (lexicalBody o.placeless lhs item.placeless) := by
  refine (Agree.lift (Element.agree_decodeAt item.element item.offset)).bind fun e _ h => ?_
  subst h
  cases e with
  | terminal t => exact agree_characterSymbols t item.offset
  | name name =>
    simp only [Outline.isStructural_placeless, Outline.lexicalId?_placeless]
    split
    · exact .refuse _ _ _
    · cases o.lexicalId? name with
      | none => exact .refuse _ _ _
      | some id => exact Agree.bind (.of_modify fun _ => rfl) fun _ _ _ => .pure rfl

theorem agree_lexicalItem (lhs : SymbolId) (name : String) (item : RhsItem) :
    Agree Eq (lexicalItem o lhs name item) (lexicalItem o.placeless lhs name item.placeless) := by
  refine (agree_lexicalBody o lhs item).bind fun body _ h => ?_
  subst h
  change Agree Eq (if item.quantifier = .one then _ else _)
    (if item.quantifier = .one then _ else _)
  split
  · exact .pure rfl
  · exact (agree_quantified name body item.quantifier item.offset).bind fun _ _ h =>
      .pure (h ▸ rfl)

theorem agree_lexicalAlternative (lhs : SymbolId) (name : String) (alt : Alternative) :
    Agree (fun _ _ => True) (lexicalAlternative o lhs name alt)
      (lexicalAlternative o.placeless lhs name alt.placeless) := by
  have hadverbs : alt.placeless.adverbs = alt.adverbs.map Adverb.placeless := rfl
  have hrhs : alt.placeless.rhs = alt.rhs.map RhsItem.placeless := rfl
  rw [lexicalAlternative, lexicalAlternative, hadverbs, hrhs]
  cases alt.adverbs with
  | cons a _ => exact .refuse _ _ _
  | nil =>
    simp only [List.map_nil, List.mapM_map]
    refine (Agree.mapM (agree_lexicalItem o lhs name) alt.rhs).bind fun parts _ h => ?_
    subst h
    exact agree_addDeclared _ _ _ _ _ _ _

theorem agree_lexical (spelling : String) (alternatives : List Alternative) (offset : Nat) :
    Agree (fun _ _ => True) (lexical o spelling alternatives offset)
      (lexical o.placeless spelling (alternatives.map Alternative.placeless) 0) := by
  refine (Agree.lift (Element.agree_decodeNameAt spelling offset)).bind fun name _ h => ?_
  subst h
  simp only [Outline.lexicalId?_placeless]
  cases o.lexicalId? name with
  | none => exact .pure trivial
  | some lhs => exact .forM_map _ (agree_lexicalAlternative o lhs name) alternatives

/-- The passes over statements without their offsets. -/
theorem agree_statements (ss : List Statement) :
    Agree (fun _ _ => True) (statements o ss)
      (statements o.placeless (ss.map Statement.placeless)) := by
  refine Agree.bind (R := fun _ _ => True) ?_ fun _ _ _ =>
    Agree.bind (R := fun _ _ => True) ?_ fun _ _ _ => ?_
  · refine .forM_map _ (fun s => ?_) ss
    cases s with
    | discard element offset => exact agree_discard o element offset
    | _ => exact .pure trivial
  · refine .forM_map _ (fun s => ?_) ss
    cases s with
    | structural lhs tiers offset => exact agree_structural o lhs tiers offset
    | _ => exact .pure trivial
  · refine .forM_map _ (fun s => ?_) ss
    cases s with
    | lexical lhs alternatives offset => exact agree_lexical o lhs alternatives offset
    | _ => exact .pure trivial

end Drafting

/-! ### Grammars -/

namespace Draft

variable (d : Draft) (o : Outline)

theorem ofOutline_placeless : ofOutline o.placeless = (ofOutline o).placeless := by
  simp [ofOutline, placeless, Outline.placeless, Function.comp_def]

theorem agree_startSymbol : Agree Eq (startSymbol o) (startSymbol o.placeless) := by
  have hstart : o.placeless.start = o.start.map fun x => (x.1, 0) := rfl
  have hstructural : o.placeless.structural = o.structural.map fun x => (x.1, 0) := rfl
  rw [startSymbol, startSymbol, hstart, hstructural]
  cases o.start with
  | some entry =>
    refine (Element.agree_decodeNameAt entry.1 entry.2).bind fun name _ h => ?_
    subst h
    simp only [Outline.structuralId?_placeless]
    cases o.structuralId? name with
    | some id => exact .ok rfl
    | none => exact .error rfl
  | none =>
    simp only [Option.map_none, List.isEmpty_map]
    split
    · exact .error rfl
    · exact .ok rfl

theorem agree_requireAcyclic (edges : Nat → List SymbolId) (cause : List String → Cause) :
    Agree (fun _ _ => True) (d.requireAcyclic edges cause)
      (d.placeless.requireAcyclic edges cause) := by
  have hsize : d.placeless.symbols.size = d.symbols.size := rfl
  rw [requireAcyclic, requireAcyclic, hsize]
  cases Digraph.findCycle edges d.symbols.size with
  | some cycle => exact .error rfl
  | none => exact .ok trivial

theorem agree_requireNonempty (lexical : RuleTable) :
    Agree (fun _ _ => True) (d.requireNonempty lexical)
      (d.placeless.requireNonempty lexical) := by
  have hlexemes : d.placeless.lexemes = d.lexemes := rfl
  have hdiscards : d.placeless.discards = d.discards := rfl
  rw [requireNonempty, requireNonempty, hlexemes, hdiscards]
  cases (d.lexemes ++ d.discards).find? lexical.isNullable with
  | some id => exact .error rfl
  | none => exact .ok trivial

theorem agree_requireDisjoint :
    Agree (fun _ _ => True) d.requireDisjoint d.placeless.requireDisjoint := by
  have hlexemes : d.placeless.lexemes = d.lexemes := rfl
  have hdiscards : d.placeless.discards = d.discards := rfl
  rw [requireDisjoint, requireDisjoint, hlexemes, hdiscards]
  cases d.discards.find? d.lexemes.contains with
  | some id => exact .error rfl
  | none => exact .ok trivial

/-- The grammar of a draft without its offsets. -/
theorem agree_finish (description : String) :
    Agree Eq (d.finish o description) (d.placeless.finish o.placeless description) := by
  refine d.agree_requireDisjoint.bind fun _ _ _ => ?_
  refine (agree_startSymbol o).bind fun start _ h => ?_
  subst h
  refine (d.agree_requireAcyclic _ _).bind fun _ _ _ => ?_
  refine (d.agree_requireNonempty _).bind fun _ _ _ => ?_
  exact (d.agree_requireAcyclic _ _).bind fun _ _ _ => .ok rfl

end Draft

theorem Agree.trans_symm {α : Type} {x y z : Except Fault α} (h : Agree Eq x z)
    (h' : Agree Eq y z) : Agree Eq x y := by
  cases h with
  | ok h =>
    subst h
    cases h' with
    | ok h' => exact .ok h'.symm
  | error h =>
    cases h' with
    | error h' => exact .error (h.trans h'.symm)

/-- Statements that are the same up to offsets define the same grammar, or they are refused for
    the same cause. -/
theorem Grammar.agree_ofStatements {ss ss' : List Statement} (description : String)
    (h : ss.map Statement.placeless = ss'.map Statement.placeless) :
    Agree Eq (ofStatements ss description) (ofStatements ss' description) := by
  have hplaceless (ss : List Statement) : Agree Eq (ofStatements ss description)
      (ofStatements (ss.map Statement.placeless) description) := by
    refine (Outline.agree_ofStatements ss).bind fun o _ ho => ?_
    subst ho
    rw [Draft.ofOutline_placeless]
    refine (Drafting.agree_statements o ss _).bind fun x y hxy => ?_
    obtain ⟨⟨⟩, d⟩ := x
    obtain ⟨⟨⟩, d'⟩ := y
    obtain rfl : d' = d.placeless := hxy.2
    exact d.agree_finish o description
  exact (hplaceless ss).trans_symm (h ▸ hplaceless ss')

end Scannerless
