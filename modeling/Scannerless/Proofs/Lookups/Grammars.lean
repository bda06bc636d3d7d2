import Scannerless.Proofs.Grammar.Compiled
import Scannerless.Proofs.Lookups.Search
import Scannerless.Proofs.Lookups.Statements

/-!
# What grammars look up is there

When all statements are read, a grammar is made of the draft: its rules are indexed by their
symbols, and what is refused is told by the names and offsets of symbols. All of these are there,
so that a list of statements has a grammar or a fault.

## Main definitions

- `Checked.tableOf`, `Checked.edgesOf` — tables that are indexed by symbols.
- `Checked.finish` — the grammar of a draft, with lookups.
- `Checked.ofStatements` — the grammar of a list of statements, with lookups.

## Main statements

- `Checked.finish_eq` — a sound draft has a grammar or a fault.
- `Checked.ofStatements_eq` — so it is for a list of statements.
-/

namespace Scannerless

namespace Checked

/-! ### Grammars with their lookups -/

/-- The place of a symbol and its name, for messages. -/
def placeOf (d : Draft) (s : SymbolId) : Option (String × Nat) := do
  let symbol ← d.symbols[s]?
  let offset ← d.offsets[s]?
  return (symbol.name, offset)

def requireDisjoint (d : Draft) : ExceptT Fault Option Unit :=
  match d.discards.find? d.lexemes.contains with
  | some id => do
    let (name, offset) ← ExceptT.lift (placeOf d id)
    throw ⟨.discardedLexeme name, offset⟩
  | none => return ()

def startSymbol (o : Outline) : ExceptT Fault Option SymbolId :=
  match o.start with
  | some (raw, offset) => do
    let name ← ExceptT.mk (some (Element.decodeNameAt raw offset))
    if o.isStructural name then ExceptT.lift (o.ids.lookup name)
    else throw ⟨.startWithoutRules name, offset⟩
  | none =>
    match o.structural with
    | (first, _) :: _ => ExceptT.lift (o.ids.lookup first)
    | [] => throw ⟨.noStructuralRules, 0⟩

/-- The table of some rules, which has places for their symbols. -/
def tableOf (rules : Array Rule) (numSymbols : Nat) : Option RuleTable :=
  if rules.toList.all fun r => r.lhs < numSymbols && r.rhs.all (· < numSymbols) then
    some (.ofRules rules numSymbols)
  else none

/-- Adds an edge to a table of successors, which has a place for where it comes from. -/
def addEdge (edges : Array (List SymbolId)) (e : SymbolId × SymbolId) :
    Option (Array (List SymbolId)) := do
  let successors ← edges[e.1]?
  return edges.setIfInBounds e.1 (successors ++ [e.2])

def edgesOf (numSymbols : Nat) (pairs : List (SymbolId × SymbolId)) :
    Option (Array (List SymbolId)) :=
  pairs.foldlM addEdge (Array.replicate numSymbols [])

/-- Pairs of a symbol and one that it may consist of alone, rule by rule. -/
def alonePairs (t : RuleTable) : List (SymbolId × SymbolId) :=
  t.rules.toList.flatMap fun r => (Draft.aloneIn t [] r.rhs).map fun s => (r.lhs, s)

def requireAcyclic (d : Draft) (edges : Array (List SymbolId)) (cause : List String → Cause) :
    ExceptT Fault Option Unit := do
  match ← ExceptT.lift (Digraph.findCycle? edges) with
  | some cycle =>
    let names ← ExceptT.lift (cycle.mapM fun s => d.symbols[s]?.map (·.name))
    let first ← ExceptT.lift cycle[0]?
    let offset ← ExceptT.lift d.offsets[first]?
    throw ⟨cause names, offset⟩
  | none => return ()

def requireNonempty (d : Draft) (lexical : RuleTable) : ExceptT Fault Option Unit :=
  match (d.lexemes ++ d.discards).find? lexical.isNullable with
  | some id => do
    let (name, offset) ← ExceptT.lift (placeOf d id)
    throw ⟨.emptyLexeme name, offset⟩
  | none => return ()

/-- The grammar of a draft whose statements are all read. -/
def finish (d : Draft) (o : Outline) (description : String) : ExceptT Fault Option Grammar := do
  requireDisjoint d
  let start ← startSymbol o
  let structural ← ExceptT.lift (tableOf d.structural d.symbols.size)
  let lexical ← ExceptT.lift (tableOf d.lexical d.symbols.size)
  let references ← ExceptT.lift (edgesOf d.symbols.size d.references)
  requireAcyclic d references .lexicalCycle
  requireNonempty d lexical
  let alone ← ExceptT.lift (edgesOf d.symbols.size (alonePairs structural))
  requireAcyclic d alone .ruleCycle
  return {
    symbols := d.symbols
    structural := structural
    lexical := lexical
    start := start
    discards := d.discards
    longestMatch := o.longestMatch.getD false
    defaultAction := o.defaultAction
    description := description }

/-- The grammar of a list of statements, or the fault that keeps them from being one, unless a
    lookup finds nothing. -/
def ofStatements (ss : List Statement) (description : String) :
    ExceptT Fault Option Grammar := do
  let o ← ExceptT.mk (some (Outline.ofStatements ss))
  let (_, d) ← (statements o ss).run (Draft.ofOutline o)
  finish d o description

/-! ### Every lookup finds something -/

open Scannerless.Digraph (run_bind_eq_some run_lift_bind)

variable {o : Outline} {d : Draft} {ss : List Statement}

theorem placeOf_eq (hd : d.Sound o) {s : SymbolId} (hs : s < d.symbols.size) :
    placeOf d s = some (d.name s, d.offset s) := by
  have hoffset : s < d.offsets.size := by rw [hd.offsets]; exact hs
  rw [placeOf, Array.getElem?_eq_getElem hs, Array.getElem?_eq_getElem hoffset, Draft.name,
    Draft.offset, Array.getElem?_eq_getElem hs, Array.getD_eq_getD_getElem?,
    Array.getElem?_eq_getElem hoffset]
  rfl

theorem requireDisjoint_eq (hd : d.Sound o) :
    (requireDisjoint d).run = some d.requireDisjoint := by
  rw [requireDisjoint, Draft.requireDisjoint]
  cases hfind : d.discards.find? d.lexemes.contains with
  | none => rfl
  | some id =>
    have hid := hd.discards id (List.mem_of_find?_eq_some hfind)
    exact run_lift_bind (placeOf_eq hd hid) _

theorem requireNonempty_eq (hd : d.Sound o) (lexical : RuleTable) :
    (requireNonempty d lexical).run = some (d.requireNonempty lexical) := by
  rw [requireNonempty, Draft.requireNonempty]
  cases hfind : (d.lexemes ++ d.discards).find? lexical.isNullable with
  | none => rfl
  | some id =>
    have hid : id < d.symbols.size := by
      rcases List.mem_append.mp (List.mem_of_find?_eq_some hfind) with h | h
      · exact hd.lexemes id h
      · exact hd.discards id h
    exact run_lift_bind (placeOf_eq hd hid) _

theorem startSymbol_eq (ho : o.Resolves) : (startSymbol o).run = some (Draft.startSymbol o) := by
  rw [startSymbol, Draft.startSymbol]
  cases o.start with
  | none =>
    cases hnames : o.structural with
    | nil => rfl
    | cons entry rest =>
      obtain ⟨first, offset⟩ := entry
      have hfirst : o.structuralId? first = some 0 := by
        simp [Outline.structuralId?, hnames, List.findIdx?_cons]
      simp only [ho.structural first 0 hfirst]
      rfl
  | some declared =>
    obtain ⟨raw, offset⟩ := declared
    refine run_bind_eq_some rfl fun name _ => ?_
    cases hid : o.structuralId? name with
    | none =>
      rw [if_neg (by simp [Outline.isStructural_iff, hid])]
      rfl
    | some id =>
      rw [if_pos (Outline.isStructural_iff.mpr ⟨id, hid⟩), ho.structural name id hid]
      rfl

theorem tableOf_eq {rules : Array Rule} {n : Nat} (h : ∀ r ∈ rules.toList, r.Below n) :
    tableOf rules n = some (.ofRules rules n) := by
  rw [tableOf, if_pos]
  rw [List.all_eq_true]
  intro r hr
  obtain ⟨hlhs, hrhs⟩ := h r hr
  rw [Bool.and_eq_true, List.all_eq_true]
  exact ⟨decide_eq_true hlhs, fun s hs => decide_eq_true (hrhs s hs)⟩

/-! ### Graphs -/

/-- The symbols that a symbol is paired with. -/
def partners (pairs : List (SymbolId × SymbolId)) (s : SymbolId) : List SymbolId :=
  (pairs.filter (·.1 == s)).map (·.2)

theorem exists_addEdge {edges : Array (List SymbolId)} {e : SymbolId × SymbolId}
    (he : e.1 < edges.size) :
    ∃ edges', addEdge edges e = some edges' ∧ edges'.size = edges.size ∧
      ∀ s, Digraph.successors edges' s = Digraph.successors edges s ++ partners [e] s := by
  obtain ⟨from', to'⟩ := e
  refine ⟨edges.setIfInBounds from' (edges[from'] ++ [to']), ?_, Array.size_setIfInBounds,
    fun s => ?_⟩
  · rw [addEdge, Array.getElem?_eq_getElem he]
    rfl
  · rw [Digraph.successors, Digraph.successors, Array.getD_eq_getD_getElem?,
      Array.getD_eq_getD_getElem?, Array.getElem?_setIfInBounds]
    by_cases hs : from' = s
    · subst hs
      simp [partners, he]
    · simp [partners, hs]

theorem exists_foldlM_addEdge {edges : Array (List SymbolId)}
    {pairs : List (SymbolId × SymbolId)} (h : ∀ e ∈ pairs, e.1 < edges.size) :
    ∃ edges', pairs.foldlM addEdge edges = some edges' ∧ edges'.size = edges.size ∧
      ∀ s, Digraph.successors edges' s = Digraph.successors edges s ++ partners pairs s := by
  induction pairs generalizing edges with
  | nil => exact ⟨edges, rfl, rfl, fun s => (List.append_nil _).symm⟩
  | cons e pairs ih =>
    rw [List.forall_mem_cons] at h
    obtain ⟨next, hadd, hsize, hone⟩ := exists_addEdge h.1
    obtain ⟨edges', hrun, hsize', hrest⟩ := ih fun e he => hsize.symm ▸ h.2 e he
    refine ⟨edges', ?_, hsize'.trans hsize, fun s => ?_⟩
    · rw [List.foldlM_cons, hadd]
      exact hrun
    · rw [hrest, hone, List.append_assoc, partners, partners, ← List.map_append,
        ← List.filter_append]
      rfl

/-- The table of edges has a place for each of them, and has those of a symbol there. -/
theorem exists_edgesOf {n : Nat} {pairs : List (SymbolId × SymbolId)} (h : ∀ e ∈ pairs, e.1 < n) :
    ∃ edges, edgesOf n pairs = some edges ∧ edges.size = n ∧
      Digraph.successors edges = partners pairs := by
  obtain ⟨edges, hrun, hsize, hall⟩ :=
    exists_foldlM_addEdge fun e he => (Array.size_replicate (n := n) (v := [])).symm ▸ h e he
  refine ⟨edges, hrun, by simpa using hsize, funext fun s => ?_⟩
  have hnone : Digraph.successors (Array.replicate n ([] : List SymbolId)) s = [] := by
    rw [Digraph.successors, Array.getD_eq_getD_getElem?, Array.getElem?_replicate]
    split <;> rfl
  rw [hall, hnone, List.nil_append]

theorem mapM_name_eq {ss : List SymbolId} (h : ∀ s ∈ ss, s < d.symbols.size) :
    (ss.mapM fun s => d.symbols[s]?.map (·.name)) = some (ss.map d.name) := by
  induction ss with
  | nil => rfl
  | cons s ss ih =>
    rw [List.forall_mem_cons] at h
    rw [List.mapM_cons, Array.getElem?_eq_getElem h.1, ih h.2, List.map_cons, Draft.name,
      Array.getElem?_eq_getElem h.1]
    rfl

theorem requireAcyclic_eq (hd : d.Sound o) {pairs : List (SymbolId × SymbolId)}
    (hpairs : ∀ e ∈ pairs, e.1 < d.symbols.size ∧ e.2 < d.symbols.size)
    {edges : Array (List SymbolId)} (hedges : edgesOf d.symbols.size pairs = some edges)
    (cause : List String → Cause) :
    (requireAcyclic d edges cause).run = some (d.requireAcyclic (partners pairs) cause) := by
  obtain ⟨edges', hedges', hsize, hsuccessors⟩ := exists_edgesOf fun e he => (hpairs e he).1
  obtain rfl := Option.some_inj.mp (hedges.symm.trans hedges')
  have hclosed : Digraph.Closed edges := by
    intro node n hn
    rw [hsuccessors] at hn
    obtain ⟨e, he, rfl⟩ := List.mem_map.mp hn
    rw [hsize]
    exact (hpairs e (List.mem_of_mem_filter he)).2
  obtain ⟨hfind, hcycle⟩ := Digraph.findCycle?_eq hclosed
  rw [hsuccessors, hsize] at hfind hcycle
  rw [requireAcyclic, run_lift_bind hfind, Draft.requireAcyclic]
  cases hfound : Digraph.findCycle (partners pairs) d.symbols.size with
  | none => rfl
  | some cycle =>
    obtain ⟨hne, hall⟩ := hcycle cycle hfound
    obtain ⟨first, rest, rfl⟩ := List.exists_cons_of_ne_nil hne
    have hoffset : d.offsets[first]? = some (d.offset first) := by
      have hlt : first < d.offsets.size := by
        rw [hd.offsets]
        exact hall first List.mem_cons_self
      rw [Draft.offset, Array.getD_eq_getD_getElem?, Array.getElem?_eq_getElem hlt]
      rfl
    have hfirst : (first :: rest)[0]? = some first := rfl
    simp only
    rw [run_lift_bind (mapM_name_eq hall), run_lift_bind hfirst, run_lift_bind hoffset]
    rfl

/-! ### Symbols that others consist of alone -/

theorem mem_of_mem_aloneIn {t : RuleTable} {before rhs : List SymbolId} {s : SymbolId}
    (h : s ∈ Draft.aloneIn t before rhs) : s ∈ rhs := by
  induction rhs generalizing before with
  | nil => cases h
  | cons x rhs ih =>
    rw [Draft.aloneIn] at h
    split at h
    · rcases List.mem_cons.mp h with rfl | h
      · exact List.mem_cons_self
      · exact List.mem_cons_of_mem x (ih h)
    · exact List.mem_cons_of_mem x (ih h)

theorem flatMap_eq_range {α β : Type} (xs : List α) (f : α → List β) :
    xs.flatMap f = (List.range xs.length).flatMap fun i => (xs[i]?.map f).getD [] := by
  induction xs using List.reverseRecOn with
  | nil => rfl
  | append_singleton xs x ih =>
    rw [List.flatMap_append, List.length_append, List.length_singleton, List.range_succ,
      List.flatMap_append, ih]
    congr 1
    · refine List.flatMap_congr fun i hi => ?_
      rw [List.getElem?_append_left (List.mem_range.mp hi)]
    · simp

theorem flatMap_filter_eq {α β : Type} (p : α → Bool) (f : α → List β) (xs : List α) :
    (xs.filter p).flatMap f = xs.flatMap fun x => if p x then f x else [] := by
  induction xs with
  | nil => rfl
  | cons x xs ih =>
    rw [List.filter_cons, List.flatMap_cons, ← ih]
    split <;> rfl

theorem partners_map (t s : SymbolId) (ss : List SymbolId) :
    partners (ss.map fun x => (t, x)) s = if t == s then ss else [] := by
  rw [partners, List.filter_map, List.map_map]
  cases hts : t == s with
  | true => simp [Function.comp_def, hts]
  | false => simp [Function.comp_def, hts]

/-- Going through the rules gives what is told of a symbol by the rules that it has. -/
theorem partners_alonePairs {rules : Array Rule} {n : Nat} (h : ∀ r ∈ rules.toList, r.lhs < n) :
    partners (alonePairs (.ofRules rules n)) = Draft.aloneFrom (.ofRules rules n) := by
  funext s
  have hrules : partners (alonePairs (.ofRules rules n)) s = rules.toList.flatMap fun r =>
      if r.lhs == s then Draft.aloneIn (.ofRules rules n) [] r.rhs else [] := by
    rw [partners, alonePairs, List.filter_flatMap, List.map_flatMap]
    exact List.flatMap_congr fun r _ => partners_map r.lhs s _
  by_cases hs : s < n
  · have hrow : (RuleTable.ofRules rules n).rulesFor s =
        (List.range rules.size).filter fun id => rules[id]?.any fun r => r.lhs == s := by
      simp [RuleTable.rulesFor, RuleTable.ofRules, RuleTable.indexByLhs, hs]
    rw [hrules, flatMap_eq_range, Draft.aloneFrom, hrow, flatMap_filter_eq, Array.length_toList]
    refine List.flatMap_congr fun id hid => ?_
    have hlt := List.mem_range.mp hid
    rw [Array.getElem?_toList, RuleTable.rhs]
    simp [RuleTable.ofRules, hlt]
  · rw [Draft.aloneFrom_of_le (Nat.le_of_not_lt hs), hrules, List.flatMap_eq_nil_iff]
    intro r hr
    rw [if_neg]
    rintro heq
    exact hs (eq_of_beq heq ▸ h r hr)

theorem finish_eq (ho : o.Resolves) (hd : d.Sound o) (description : String) :
    (finish d o description).run = some (d.finish o description) := by
  rw [finish, Draft.finish]
  refine run_bind_eq_some (requireDisjoint_eq hd) fun _ _ => ?_
  refine run_bind_eq_some (startSymbol_eq ho) fun start _ => ?_
  rw [run_lift_bind (tableOf_eq hd.structural), run_lift_bind (tableOf_eq hd.lexical)]
  obtain ⟨references, hreferences, -, -⟩ := exists_edgesOf fun e he => (hd.references e he).1
  rw [run_lift_bind hreferences]
  refine run_bind_eq_some (requireAcyclic_eq hd hd.references hreferences _) fun _ _ => ?_
  refine run_bind_eq_some (requireNonempty_eq hd _) fun _ _ => ?_
  have halone : ∀ e ∈ alonePairs (.ofRules d.structural d.symbols.size),
      e.1 < d.symbols.size ∧ e.2 < d.symbols.size := by
    intro e he
    obtain ⟨r, hr, he⟩ := List.mem_flatMap.mp he
    obtain ⟨s, hs, rfl⟩ := List.mem_map.mp he
    exact ⟨(hd.structural r hr).1, (hd.structural r hr).2 s (mem_of_mem_aloneIn hs)⟩
  obtain ⟨alone, hedges, -, -⟩ := exists_edgesOf fun e he => (halone e he).1
  rw [run_lift_bind hedges,
    ← partners_alonePairs fun r hr => (hd.structural r hr).1]
  exact run_bind_eq_some (requireAcyclic_eq hd halone hedges _) fun _ _ => rfl

/-- A list of statements has a grammar or a fault, whatever the statements are. -/
theorem ofStatements_eq (ss : List Statement) (description : String) :
    (ofStatements ss description).run = some (Grammar.ofStatements ss description) := by
  rw [ofStatements, Grammar.ofStatements]
  refine run_bind_eq_some rfl fun o ho => ?_
  obtain ⟨hrun, hsound⟩ := statements_finds ho (Draft.sound_ofOutline o)
  refine run_bind_eq_some hrun fun x hx => ?_
  exact finish_eq (Outline.resolves_of_ofStatements ho) (hsound x.1 x.2 hx).1 description

end Checked

end Scannerless
