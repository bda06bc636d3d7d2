import Scannerless.Proofs.Lookups.Elements

/-!
# What statements look up is there

Step by step, what is looked up while statements are read is found: the item of a sequence, the
symbols of tiers and the places of operands, and the symbols of the definitions themselves.

## Main statements

- `Checked.placeAll_operandsFrom` — operands have places on their right side.
- `Checked.sequence_finds`, `Checked.precedence_finds` — sequences and tiers.
- `Checked.structural_finds`, `Checked.lexical_finds` — definitions.
- `Checked.statements_finds` — all statements.
-/

namespace Scannerless

namespace Checked

open Draft

variable {o : Outline} {d : Draft}

/-! ### Structural statements -/

theorem plainAlternative_finds (ho : o.Resolves) (hd : d.Sound o) {lhs : SymbolId}
    (hlhs : lhs < d.symbols.size) (name : String) (alt : Alternative) :
    d.Finds o (plainAlternative o lhs name alt) (Drafting.plainAlternative o lhs name alt)
      fun _ _ => True := by
  rw [plainAlternative, Drafting.plainAlternative]
  refine (finds_read hd _).bind fun adverbs d₁ hd₁ hle₁ _ => ?_
  refine (structuralSymbols_finds ho hd₁ alt.rhs).bind fun rhs d₂ hd₂ hle₂ hrhs => ?_
  exact addDeclared_finds hd₂ _ (Nat.lt_of_lt_of_le hlhs (Nat.le_trans hle₁ hle₂)) hrhs.2 _ _ _ _

theorem separator_finds (ho : o.Resolves) (hd : d.Sound o) (written : Option (String × Nat)) :
    d.Finds o (written.mapM fun x => structuralSymbol o x.1 x.2)
      (written.mapM fun x => Drafting.structuralSymbol o x.1 x.2)
      fun separator d' => ∀ s ∈ separator, s < d'.symbols.size := by
  cases written with
  | none => exact finds_pure hd nofun
  | some x =>
    refine (structuralSymbol_finds ho hd x.1 x.2).bind fun s d' hd' _ hs => finds_pure hd' ?_
    rintro _ ⟨⟩
    exact hs

/-- The step for a sequence adds the same rules when it looks things up. -/
theorem sequence_eq (o : Outline) (lhs : SymbolId) (name : String) (alt : Alternative) :
    sequence o lhs name alt = (do
      let item ← found alt.rhs[0]?
      let adverbs ← read (RuleAdverbs.read true alt.adverbs)
      let element ← structuralSymbol o item.element item.offset
      let separator ← adverbs.separator.mapM fun x => structuralSymbol o x.1 x.2
      let items ← addSymbol (name ++ "[Seq]") .nonterminal alt.offset
      (SequenceParts.rules ⟨adverbs, element, separator, items⟩ lhs name item.quantifier).forM
        (addRule .structural)) := by
  rw [sequence]
  refine bind_congr fun item => bind_congr fun adverbs => bind_congr fun element =>
    bind_congr fun separator => bind_congr fun items => ?_
  simp only [SequenceParts.rules, SequenceParts.itemRules, SequenceParts.nameRules, addPlain]
  cases separator with
  | none => by_cases hq : item.quantifier = .star <;> simp [hq, spliceRule, alternativeRule]
  | some s =>
    by_cases hq : item.quantifier = .star <;> by_cases hproper : adverbs.proper <;>
      simp [hq, hproper, spliceRule, alternativeRule]

theorem sequence_finds (ho : o.Resolves) (hd : d.Sound o) {lhs : SymbolId}
    (hlhs : lhs < d.symbols.size) (name : String) {item : RhsItem} {alt : Alternative}
    (hitem : alt.rhs[0]? = some item) :
    d.Finds o (sequence o lhs name alt) (Drafting.sequence o lhs name item alt)
      fun _ _ => True := by
  rw [sequence_eq, Drafting.sequence_eq]
  refine finds_found_bind hitem ?_
  refine (finds_read hd _).bind fun adverbs d₁ hd₁ hle₁ _ => ?_
  refine (structuralSymbol_finds ho hd₁ _ _).bind fun element d₂ hd₂ hle₂ helement => ?_
  refine (separator_finds ho hd₂ _).bind fun separator d₃ hd₃ hle₃ hseparator => ?_
  refine (addSymbol_finds hd₃ _ _ _).bind fun items d₄ hd₄ hle₄ hitems => ?_
  -- All symbols of the sequence are there before its first rule is.
  have hle₃₄ := Nat.le_trans hle₃ hle₄
  refine finds_forM hd₄ fun r hr d₅ hd₅ hle₅ => addRule_finds hd₅ .structural ?_
  refine Rule.Below.mono ⟨?_, fun s hs => ?_⟩ hle₅
  · rcases SequenceParts.lhs_of_mem_rules hr with h | h
    · rw [h]
      exact Nat.lt_of_lt_of_le hlhs (Nat.le_trans hle₁ (Nat.le_trans hle₂ hle₃₄))
    · rw [h]
      exact hitems
  · rcases SequenceParts.mem_of_mem_rhs hr hs with rfl | rfl | hs
    · exact hitems
    · exact Nat.lt_of_lt_of_le helement hle₃₄
    · exact Nat.lt_of_lt_of_le (hseparator s hs) hle₄

theorem alternative_finds (ho : o.Resolves) (hd : d.Sound o) {lhs : SymbolId}
    (hlhs : lhs < d.symbols.size) (name : String) (alone : Bool) (alt : Alternative) :
    d.Finds o (alternative o lhs name alone alt) (Drafting.alternative o lhs name alone alt)
      fun _ _ => True := by
  rw [alternative, Drafting.alternative]
  cases hfind : alt.rhs.find? fun item => item.quantifier != .one with
  | none => exact plainAlternative_finds ho hd hlhs name alt
  | some item =>
    simp only
    split
    next hsequence =>
      -- The item with a quantifier is the only one.
      obtain ⟨only, honly⟩ := List.length_eq_one_iff.mp hsequence.1
      have hmem := List.mem_of_find?_eq_some hfind
      rw [honly, List.mem_singleton] at hmem
      exact sequence_finds ho hd hlhs name (by rw [honly, hmem]; rfl)
    next => exact finds_throw _ _

/-! ### Tiers -/

theorem operandsFrom_cons (name : String) (k : Nat) (e : Element) (elements : List Element) :
    operandsFrom name k (e :: elements) =
      if e == Element.name name then k :: operandsFrom name (k + 1) elements
      else operandsFrom name (k + 1) elements := by
  rw [operandsFrom, List.zipIdx_cons, List.filter_cons]
  split <;> rfl

theorem le_of_mem_operandsFrom {name : String} {k i : Nat} {elements : List Element}
    (h : i ∈ operandsFrom name k elements) : k ≤ i := by
  obtain ⟨⟨e, i⟩, hmem, rfl⟩ := List.mem_map.mp h
  exact (List.mem_zipIdx (List.mem_of_mem_filter hmem)).1

theorem operandsFrom_eq_nil_iff {name : String} {k : Nat} {elements : List Element} :
    operandsFrom name k elements = [] ↔
      (elements.map (· == Element.name name)).contains true = false := by
  induction elements generalizing k with
  | nil => simp [operandsFrom]
  | cons e elements ih =>
    rw [operandsFrom_cons]
    cases he : e == Element.name name with
    | true => simp [he]
    | false => simpa [he] using ih

/-- A place is the last one if there are no operands behind it. -/
theorem getLast?_operandsFrom (name : String) (k : Nat) (elements : List Element) :
    ((k :: operandsFrom name (k + 1) elements).getLast? == some k) =
      !(elements.map (· == Element.name name)).contains true := by
  by_cases hnil : operandsFrom name (k + 1) elements = []
  · rw [operandsFrom_eq_nil_iff.mp hnil, hnil]
    simp
  · have hcontains : (elements.map (· == Element.name name)).contains true = true := by
      rw [← Bool.not_eq_false, ← operandsFrom_eq_nil_iff (k := k + 1)]
      exact hnil
    have hmem := le_of_mem_operandsFrom (List.getLast_mem hnil)
    rw [hcontains, List.getLast?_cons, List.getLast?_eq_some_getLast hnil, Option.getD_some]
    simp only [Option.some_beq_some, Bool.not_true, beq_eq_false_iff_ne]
    omega

theorem placeOne_append (a : Associativity) (lhs current tighter : SymbolId)
    (first last : Option Nat) {front : List SymbolId} {k : Nat} (hk : front.length = k)
    (s : SymbolId) (rhs : List SymbolId) :
    placeOne a lhs current tighter first last (front ++ s :: rhs) k =
      some (front ++
        a.operand lhs current tighter (first == some k) (last == some k) :: rhs) := by
  subst hk
  rw [placeOne, if_pos (by simp), List.set_append_right _ _ (Nat.le_refl _), Nat.sub_self]
  rfl

/-- The places of operands from a place on are there, and get the symbols of the operands. -/
theorem foldlM_placeOne (a : Associativity) (lhs current tighter : SymbolId) (name : String)
    {first last : Option Nat} {isFirst : Bool} {k : Nat} {elements : List Element}
    {front rhs : List SymbolId} (hk : front.length = k) (hlength : elements.length = rhs.length)
    (hfirst : ∀ i ∈ operandsFrom name k elements, (first == some i) =
      (isFirst && (operandsFrom name k elements).head? == some i))
    (hlast : ∀ i ∈ operandsFrom name k elements,
      (last == some i) = ((operandsFrom name k elements).getLast? == some i)) :
    (operandsFrom name k elements).foldlM (placeOne a lhs current tighter first last)
        (front ++ rhs) =
      some (front ++ placeOperands a lhs current tighter isFirst
        (elements.map (· == Element.name name)) rhs) := by
  induction elements generalizing isFirst k front rhs with
  | nil =>
    obtain rfl := List.length_eq_zero_iff.mp hlength.symm
    rfl
  | cons e elements ih =>
    cases rhs with
    | nil => cases hlength
    | cons s rhs =>
      have hlength : elements.length = rhs.length := Nat.succ.inj hlength
      have hk' (x : SymbolId) : (front ++ [x]).length = k + 1 := by simp [hk]
      rw [operandsFrom_cons] at hfirst hlast ⊢
      cases he : e == Element.name name with
      | false =>
        rw [he] at hfirst hlast
        have hrest := ih (hk' s) hlength hfirst hlast
        rw [List.append_assoc, List.append_assoc] at hrest
        rw [List.map_cons, he]
        exact hrest
      | true =>
        rw [he, if_pos rfl, List.forall_mem_cons] at hfirst hlast
        -- The places behind this one are others, and the last of them is the last of all.
        have hne : ∀ i ∈ operandsFrom name (k + 1) elements, k ≠ i :=
          fun i hi => Nat.ne_of_lt (le_of_mem_operandsFrom hi)
        have hfirst' : ∀ i ∈ operandsFrom name (k + 1) elements, (first == some i) =
            (false && (operandsFrom name (k + 1) elements).head? == some i) := by
          intro i hi
          rw [hfirst.2 i hi]
          simp [hne i hi]
        have hlast' : ∀ i ∈ operandsFrom name (k + 1) elements, (last == some i) =
            ((operandsFrom name (k + 1) elements).getLast? == some i) := by
          intro i hi
          obtain ⟨j, rest, hrest⟩ := List.exists_cons_of_ne_nil (List.ne_nil_of_mem hi)
          rw [hlast.2 i hi, hrest, List.getLast?_cons_cons]
        have hrest (x : SymbolId) := ih (hk' x) hlength hfirst' hlast'
        simp only [List.append_assoc] at hrest
        rw [if_pos rfl, List.foldlM_cons, placeOne_append a lhs current tighter first last hk,
          hfirst.1, hlast.1, getLast?_operandsFrom, List.map_cons, he]
        simpa [placeOperands] using hrest _

/-- Operands have places on their right side, and get their symbols there. -/
theorem placeAll_operandsFrom (a : Associativity) (lhs current tighter : SymbolId) (name : String)
    {elements : List Element} {rhs : List SymbolId} (hlength : elements.length = rhs.length) :
    placeAll a lhs current tighter (operandsFrom name 0 elements) rhs =
      some (placeOperands a lhs current tighter true
        (elements.map (· == Element.name name)) rhs) := by
  have hnone : ([] : List SymbolId).length = 0 := rfl
  exact foldlM_placeOne a lhs current tighter name hnone hlength (fun _ _ => rfl) fun _ _ => rfl

theorem tierAlternative_finds (ho : o.Resolves) (hd : d.Sound o) {lhs current tighter : SymbolId}
    (hlhs : lhs < d.symbols.size) (hcurrent : current < d.symbols.size)
    (htighter : tighter < d.symbols.size) (name : String) (alt : Alternative) :
    d.Finds o (tierAlternative o lhs name current tighter alt)
      (Drafting.tierAlternative o lhs name current tighter alt) fun _ _ => True := by
  rw [tierAlternative, Drafting.tierAlternative]
  cases hfind : alt.rhs.find? fun item => item.quantifier != .one with
  | some item => exact finds_throw _ _
  | none =>
    refine (finds_read hd _).bind fun adverbs d₁ hd₁ hle₁ _ => ?_
    have helements : d₁.Finds o
        (alt.rhs.mapM fun item => read (Element.decodeAt item.element item.offset))
        (alt.rhs.mapM fun item => liftM (Element.decodeAt item.element item.offset)) _ :=
      finds_mapM hd₁ (fun _ _ _ _ _ => trivial) fun item _ _ hd' _ =>
        (finds_read hd' _).mono fun _ _ _ => trivial
    refine helements.bind fun elements d₂ hd₂ hle₂ helements => ?_
    refine (structuralSymbols_finds ho hd₂ alt.rhs).bind fun rhs d₃ hd₃ hle₃ hrhs => ?_
    refine finds_found_bind (placeAll_operandsFrom _ lhs current tighter name
      (helements.1.trans hrhs.1.symm)) ?_
    have hle {s : SymbolId} (hs : s < d.symbols.size) : s < d₃.symbols.size :=
      Nat.lt_of_lt_of_le hs (Nat.le_trans hle₁ (Nat.le_trans hle₂ hle₃))
    refine addDeclared_finds hd₃ _ (hle hcurrent) (fun s hs => ?_) _ _ _ _
    rcases mem_of_mem_placeOperands hs with hs | rfl | rfl | rfl
    · exact hrhs.2 s hs
    · exact hle hlhs
    · exact hle hcurrent
    · exact hle htighter

/-- The rules that lead from tier to tier are those for neighbours in the list of tiers. -/
theorem forall₂_neighbours (levels : List SymbolId) :
    List.Forall₂ (fun p x => levels[p + 1]? = some x.1 ∧ levels[p]? = some x.2)
      (List.range (levels.length - 1)) (levels.tail.zip levels) := by
  rw [List.forall₂_iff_get]
  refine ⟨by simp, fun i hi hi' => ?_⟩
  simp

/-- The tiers go with their own symbols and with those of their neighbours. -/
theorem forall₂_tiers {tiers : List (List Alternative)} {levels : List SymbolId}
    (hlength : levels.length = tiers.length) :
    List.Forall₂ (fun x y => x.1 = y.1 ∧ levels[x.2]? = some y.2.1 ∧ levels[x.2 - 1]? = some y.2.2)
      tiers.zipIdx (tiers.zip (levels.zip (levels.take 1 ++ levels))) := by
  rw [List.forall₂_iff_get]
  refine ⟨?_, fun i hi hi' => ?_⟩
  · simp [hlength]
  · have hlt : i < levels.length := by
      rw [hlength]
      simpa using hi
    cases i with
    | zero =>
      obtain ⟨s, levels, rfl⟩ := List.exists_cons_of_length_pos hlt
      simp
    | succ i =>
      obtain ⟨s, levels, rfl⟩ := List.exists_cons_of_length_pos (Nat.zero_lt_of_lt hlt)
      simp

/-- The symbols of tiers, as many as there are tiers. -/
theorem levels_finds (hd : d.Sound o) (name : String) (count offset : Nat) :
    d.Finds o
      ((List.range count).mapM fun p =>
        addSymbol (name ++ "[" ++ toString p ++ "]") .nonterminal offset)
      ((List.range count).mapM fun p =>
        Drafting.addSymbol (name ++ "[" ++ toString p ++ "]") .nonterminal offset)
      fun levels d' => levels.length = count ∧ ∀ s ∈ levels, s < d'.symbols.size := by
  have hstable : ∀ s (d' d'' : Draft), d'.symbols.size ≤ d''.symbols.size → IsSymbol s d' →
      IsSymbol s d'' := fun _ _ _ hle hs => Nat.lt_of_lt_of_le hs hle
  have hloop := finds_mapM hd hstable fun p (_ : p ∈ List.range count) d' hd' _ =>
    addSymbol_finds hd' (name ++ "[" ++ toString p ++ "]") .nonterminal offset
  exact hloop.mono fun levels _ h => ⟨h.1.trans List.length_range, h.2⟩

/-- The rules that lead from tier to tier, with the symbols of the tiers looked up by number. -/
theorem chain_finds (hd : d.Sound o) {levels : List SymbolId}
    (hlevels : ∀ s ∈ levels, s < d.symbols.size) (name : String) :
    d.Finds o
      ((List.range (levels.length - 1)).forM fun p => do
        let current ← found levels[p + 1]?
        let tighter ← found levels[p]?
        addPlain .structural current [tighter] name .splice 0)
      ((levels.tail.zip levels).forM fun x =>
        Drafting.addPlain .structural x.1 [x.2] name .splice 0) fun _ _ => True := by
  refine finds_forM_forall₂ hd (Nat.le_refl _) <| (forall₂_neighbours levels).imp
    fun p x hx d' hd' hle => ?_
  refine finds_found_bind hx.1 (finds_found_bind hx.2 ?_)
  have hcurrent := Nat.lt_of_lt_of_le (hlevels _ (List.mem_of_getElem? hx.1)) hle
  have htighter := Nat.lt_of_lt_of_le (hlevels _ (List.mem_of_getElem? hx.2)) hle
  exact addPlain_finds hd' _ hcurrent (List.forall_mem_singleton.mpr htighter) _ _ _

/-- The rules of the tiers, with the symbols of the tiers looked up by number. -/
theorem tiers_finds (ho : o.Resolves) (hd : d.Sound o) {lhs : SymbolId}
    (hlhs : lhs < d.symbols.size) (name : String) {tiers : List (List Alternative)}
    {levels : List SymbolId} (hlength : levels.length = tiers.length)
    (hlevels : ∀ s ∈ levels, s < d.symbols.size) :
    d.Finds o
      (tiers.zipIdx.forM fun x => do
        let current ← found levels[x.2]?
        let tighter ← found levels[x.2 - 1]?
        x.1.forM (tierAlternative o lhs name current tighter))
      ((tiers.zip (levels.zip (levels.take 1 ++ levels))).forM fun x =>
        x.1.forM (Drafting.tierAlternative o lhs name x.2.1 x.2.2)) fun _ _ => True := by
  refine finds_forM_forall₂ hd (Nat.le_refl _) <| (forall₂_tiers hlength).imp
    fun x y hxy d' hd' hle => ?_
  obtain ⟨halternatives, hcurrent, htighter⟩ := hxy
  refine finds_found_bind hcurrent (finds_found_bind htighter ?_)
  rw [halternatives]
  refine finds_forM hd' fun alt _ d'' hd'' hle' => ?_
  have hle'' := Nat.le_trans hle hle'
  exact tierAlternative_finds ho hd'' (Nat.lt_of_lt_of_le hlhs hle'')
    (Nat.lt_of_lt_of_le (hlevels _ (List.mem_of_getElem? hcurrent)) hle'')
    (Nat.lt_of_lt_of_le (hlevels _ (List.mem_of_getElem? htighter)) hle'') name alt

theorem precedence_finds (ho : o.Resolves) (hd : d.Sound o) {lhs : SymbolId}
    (hlhs : lhs < d.symbols.size) (name : String) {tiers : List (List Alternative)}
    (hne : tiers ≠ []) :
    d.Finds o (precedence o lhs name tiers) (Drafting.precedence o lhs name tiers)
      fun _ _ => True := by
  rw [precedence, Drafting.precedence]
  refine finds_offsetOf_bind hd hlhs (finds_get_right ?_)
  refine (levels_finds hd name _ _).bind fun levels d₁ hd₁ hle₁ hlevels => ?_
  obtain ⟨hlength, hlevels⟩ := hlevels
  replace hlhs := Nat.lt_of_lt_of_le hlhs hle₁
  have hnonempty : levels ≠ [] := by
    rw [← List.length_pos_iff_ne_nil, hlength]
    exact List.length_pos_of_ne_nil hne
  obtain ⟨loosest, hloosest⟩ : ∃ x, levels.getLast? = some x :=
    ⟨_, List.getLast?_eq_some_getLast hnonempty⟩
  refine finds_found_bind (List.getLast?_eq_getElem?.symm.trans hloosest) ?_
  rw [hloosest]
  have hlast : ∀ s ∈ [loosest], s < d₁.symbols.size := by
    simpa using hlevels _ (List.mem_of_getLast? hloosest)
  refine (addPlain_finds hd₁ _ hlhs hlast name .splice 0).bind fun _ d₂ hd₂ hle₂ _ => ?_
  have hlevels₂ : ∀ s ∈ levels, s < d₂.symbols.size :=
    fun s hs => Nat.lt_of_lt_of_le (hlevels s hs) hle₂
  refine (chain_finds hd₂ hlevels₂ name).bind fun _ d₃ hd₃ hle₃ _ => ?_
  exact tiers_finds ho hd₃ (Nat.lt_of_lt_of_le hlhs (Nat.le_trans hle₂ hle₃)) name hlength
    fun s hs => Nat.lt_of_lt_of_le (hlevels₂ s hs) hle₃

/-- A structural statement of a name with structural rules, with at least one tier. -/
theorem structural_finds (ho : o.Resolves) (hd : d.Sound o) {spelling : String}
    {tiers : List (List Alternative)} {offset : Nat} (hne : tiers ≠ [])
    (hname : ∀ name, Element.decodeNameAt spelling offset = .ok name →
      o.isStructural name = true) :
    d.Finds o (structural o spelling tiers offset) (Drafting.structural o spelling tiers offset)
      fun _ _ => True := by
  rw [structural, Drafting.structural]
  refine (finds_read hd _).bind fun name d₁ hd₁ hle₁ hdecode => ?_
  obtain ⟨lhs, hid⟩ := Outline.isStructural_iff.mp (hname name hdecode)
  have hlhs : lhs < d₁.symbols.size :=
    Nat.lt_of_lt_of_le (Outline.isName_of_structuralId? hid) hd₁.names
  simp only [hid]
  refine finds_found_bind (ho.structural name lhs hid) ?_
  cases tiers with
  | nil => exact absurd rfl hne
  | cons alternatives rest =>
    cases rest with
    | nil =>
      rw [if_neg (by simp)]
      refine finds_found_bind rfl ?_
      exact finds_forM hd₁ fun alt _ d' hd' hle =>
        alternative_finds ho hd' (Nat.lt_of_lt_of_le hlhs hle) name _ alt
    | cons next rest =>
      rw [if_pos (by simp)]
      exact precedence_finds ho hd₁ hlhs name hne

/-! ### Lexical statements -/

theorem quantified_finds (hd : d.Sound o) {body : List SymbolId}
    (hbody : ∀ s ∈ body, s < d.symbols.size) (name : String) (q : Quantifier) (offset : Nat) :
    d.Finds o (quantified name body q offset) (Drafting.quantified name body q offset)
      IsSymbol := by
  rw [quantified, Drafting.quantified]
  refine finds_get_bind ?_
  refine (addSymbol_finds hd _ _ _).bind fun id d₁ hd₁ hle₁ hid => ?_
  have hrules : d₁.Finds o
      ((q.alternatives id body).forM fun rhs =>
        addPlain .lexical id rhs (name ++ "[" ++ toString d.symbols.size ++ "]") (.apply none) 0)
      ((q.alternatives id body).forM fun rhs =>
        Drafting.addPlain .lexical id rhs (name ++ "[" ++ toString d.symbols.size ++ "]")
          (.apply none) 0) fun _ _ => True := by
    refine finds_forM hd₁ fun rhs hrhs d₂ hd₂ hle₂ => ?_
    refine addPlain_finds hd₂ _ (Nat.lt_of_lt_of_le hid hle₂) (fun s hs => ?_) _ _ _
    rcases Plan.mem_alternatives hrhs hs with hs | rfl
    · exact Nat.lt_of_lt_of_le (hbody s hs) (Nat.le_trans hle₁ hle₂)
    · exact Nat.lt_of_lt_of_le hid hle₂
  exact hrules.bind fun _ d₂ hd₂ hle₂ _ => finds_pure hd₂ (Nat.lt_of_lt_of_le hid hle₂)

theorem lexicalBody_finds (ho : o.Resolves) (hd : d.Sound o) {lhs : SymbolId}
    (hlhs : lhs < d.symbols.size) (item : RhsItem) :
    d.Finds o (lexicalBody o lhs item) (Drafting.lexicalBody o lhs item)
      fun body d' => ∀ s ∈ body, s < d'.symbols.size := by
  rw [lexicalBody, Drafting.lexicalBody]
  refine (finds_read hd _).bind fun element d₁ hd₁ hle₁ _ => ?_
  cases element with
  | terminal t => exact characterSymbols_finds hd₁ t item.offset
  | name name =>
    simp only
    split
    · exact finds_throw _ _
    next hstructural =>
      cases hid : o.lexicalId? name with
      | none =>
        have hnot : ¬o.isLexical name = true := by simp [Outline.isLexical_iff, hid]
        cases o.ids.lookup name with
        | none => exact finds_throw _ _
        | some id =>
          simp only
          rw [if_neg hnot]
          exact finds_throw _ _
      | some id =>
        simp only [ho.lexical name id hid]
        rw [if_pos (Outline.isLexical_iff.mpr ⟨id, hid⟩)]
        have hlt : id < d₁.symbols.size :=
          Nat.lt_of_lt_of_le (Outline.isName_of_lexicalId? hid) hd₁.names
        have hreferences : ∀ e ∈ d₁.references ++ [(lhs, id)],
            e.1 < d₁.symbols.size ∧ e.2 < d₁.symbols.size := by
          intro e he
          rcases List.mem_append.mp he with he | he
          · exact hd₁.references e he
          · obtain rfl := List.mem_singleton.mp he
            exact ⟨Nat.lt_of_lt_of_le hlhs hle₁, hlt⟩
        have hnoted : d₁.Finds o
            (modify fun d => { d with references := d.references ++ [(lhs, id)] })
            (modify fun d => { d with references := d.references ++ [(lhs, id)] }) _ :=
          finds_modify rfl { hd₁ with references := hreferences } (Nat.le_refl _)
        refine hnoted.bind fun _ d₂ hd₂ hle₂ _ => finds_pure hd₂ ?_
        exact List.forall_mem_singleton.mpr (Nat.lt_of_lt_of_le hlt hle₂)

theorem lexicalItem_finds (ho : o.Resolves) (hd : d.Sound o) {lhs : SymbolId}
    (hlhs : lhs < d.symbols.size) (name : String) (item : RhsItem) :
    d.Finds o (lexicalItem o lhs name item) (Drafting.lexicalItem o lhs name item)
      fun body d' => ∀ s ∈ body, s < d'.symbols.size := by
  rw [lexicalItem, Drafting.lexicalItem]
  refine (lexicalBody_finds ho hd hlhs item).bind fun body d₁ hd₁ hle₁ hbody => ?_
  split
  · exact finds_pure hd₁ hbody
  · refine (quantified_finds hd₁ hbody _ _ _).bind fun s d₂ hd₂ _ hs => finds_pure hd₂ ?_
    exact List.forall_mem_singleton.mpr hs

theorem lexicalAlternative_finds (ho : o.Resolves) (hd : d.Sound o) {lhs : SymbolId}
    (hlhs : lhs < d.symbols.size) (name : String) (alt : Alternative) :
    d.Finds o (lexicalAlternative o lhs name alt) (Drafting.lexicalAlternative o lhs name alt)
      fun _ _ => True := by
  rw [lexicalAlternative, Drafting.lexicalAlternative]
  cases alt.adverbs with
  | cons a rest => exact finds_throw _ _
  | nil =>
    have hparts : d.Finds o (alt.rhs.mapM (lexicalItem o lhs name))
        (alt.rhs.mapM (Drafting.lexicalItem o lhs name))
        fun parts d' => parts.length = alt.rhs.length ∧
          ∀ body ∈ parts, ∀ s ∈ body, s < d'.symbols.size :=
      finds_mapM hd (fun _ _ _ hle hbody s hs => Nat.lt_of_lt_of_le (hbody s hs) hle)
        fun item _ _ hd' hle => lexicalItem_finds ho hd' (Nat.lt_of_lt_of_le hlhs hle) name item
    refine hparts.bind fun parts d₁ hd₁ hle₁ hparts => ?_
    refine addDeclared_finds hd₁ _ (Nat.lt_of_lt_of_le hlhs hle₁) (fun s hs => ?_) _ _ _ _
    obtain ⟨body, hbody, hs⟩ := List.mem_flatten.mp hs
    exact hparts.2 body hbody s hs

/-- A lexical statement of a name with lexical rules. -/
theorem lexical_finds (ho : o.Resolves) (hd : d.Sound o) {spelling : String}
    {alternatives : List Alternative} {offset : Nat}
    (hname : ∀ name, Element.decodeNameAt spelling offset = .ok name → o.isLexical name = true) :
    d.Finds o (lexical o spelling alternatives offset)
      (Drafting.lexical o spelling alternatives offset) fun _ _ => True := by
  rw [lexical, Drafting.lexical]
  refine (finds_read hd _).bind fun name d₁ hd₁ hle₁ hdecode => ?_
  obtain ⟨lhs, hid⟩ := Outline.isLexical_iff.mp (hname name hdecode)
  have hlhs : lhs < d₁.symbols.size :=
    Nat.lt_of_lt_of_le (Outline.isName_of_lexicalId? hid) hd₁.names
  simp only [hid]
  refine finds_found_bind (ho.lexical name lhs hid) ?_
  exact finds_forM hd₁ fun alt _ d' hd' hle =>
    lexicalAlternative_finds ho hd' (Nat.lt_of_lt_of_le hlhs hle) name alt

/-! ### All statements -/

/-- Statements find what they look up, since the outline has the names that they define. -/
theorem statements_finds {ss : List Statement} (ho : Outline.ofStatements ss = .ok o)
    (hd : d.Sound o) :
    d.Finds o (statements o ss) (Drafting.statements o ss) fun _ _ => True := by
  have hresolves := Outline.resolves_of_ofStatements ho
  have hlists := Outline.lists_of_ofStatements ho
  rw [statements, Drafting.statements]
  refine (finds_forM hd fun s _ d' hd' _ => ?_).bind fun _ d₁ hd₁ _ _ => ?_
  · cases s with
    | discard element offset => exact discard_finds hresolves hd' element offset
    | _ => exact finds_pure hd' trivial
  refine (finds_forM hd₁ fun s hs d' hd' _ => ?_).bind fun _ d₂ hd₂ _ _ => ?_
  · cases s with
    | structural lhs tiers offset =>
      refine structural_finds hresolves hd' (hlists.inhabited _ hs).1 fun name hdecode => ?_
      exact (hlists.structural name).mpr
        ⟨_, hs, Outline.structural_name (Element.decodeNameAt_eq_ok.mp hdecode)⟩
    | _ => exact finds_pure hd' trivial
  refine finds_forM hd₂ fun s hs d' hd' _ => ?_
  cases s with
  | lexical lhs alternatives offset =>
    refine lexical_finds hresolves hd' fun name hdecode => ?_
    exact (hlists.lexical name).mpr
      ⟨_, hs, Outline.lexical_name (Element.decodeNameAt_eq_ok.mp hdecode)⟩
  | _ => exact finds_pure hd' trivial

end Checked

/-- The draft of an outline is sound: it has the symbols of its names. -/
theorem Draft.sound_ofOutline (o : Outline) : (Draft.ofOutline o).Sound o where
  offsets := by simp [ofOutline]
  names := by simp [ofOutline]
  anonymous := nofun
  characters := nofun
  lexemes := nofun
  discards := nofun
  references := nofun
  structural := nofun
  lexical := nofun

end Scannerless
