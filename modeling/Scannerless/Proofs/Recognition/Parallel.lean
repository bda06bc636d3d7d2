import Mathlib.Combinatorics.Enumerative.DoubleCounting
import Scannerless.Proofs.Recognition.Alignment
import Scannerless.Proofs.Recognition.Failure
import Scannerless.Proofs.Recognition.Limit

/-!
# Runs that scan alike

With longest matching a run goes from place to place in one chain. Two runs with a grammar may
come to places far apart and yet read the same lexemes with the same texts step by step, as
different texts may be discarded on the way. Their lattices are aligned, so that what comes of the
one run comes of the other one.

## Main definitions

- `Recognition.ComesTo` — the place that a run comes to in some steps.
- `Recognition.ScansLike` — two runs read the same, step by step.
- `Recognition.scansLikeAt` — a test for runs that do.
- `Recognition.Opposite` — places that two runs come to in as many steps.
- `RunError.Akin` — errors of one kind.

## Main statements

- `Recognition.ScansLike.aligned` — the lattices of such runs are aligned.
- `Recognition.ScansLike.covers` — they have the same readings.
- `Recognition.ScansLike.failure` — they fail for the same reason.
- `Recognition.ScansLike.length_created_le` — the one makes no more items than the other.
-/

namespace Scannerless

open Text

namespace Recognition

variable {r r' : Recognition} {n m k k' j : Nat}

/-- A run comes to a place by reading some number of tokens. -/
inductive ComesTo (r : Recognition) : Nat → Nat → Prop where
  | zero : ComesTo r 0 0
  | succ {n k j : Nat} {s : SymbolId} (h : ComesTo r n k) (hs : r.lattice.token k s j) :
      ComesTo r (n + 1) j

/-- Two runs scan alike: having come as many steps they read the same set of lexemes, with the
    same text, and where they read none both or neither have skipped to the end of the input. -/
structure ScansLike (r r' : Recognition) : Prop where
  lexemes : ∀ {n k k'}, r.ComesTo n k → r'.ComesTo n k' →
    ∀ s, (∃ j, r.lattice.token k s j) ↔ ∃ j', r'.lattice.token k' s j'
  texts : ∀ {n k k'}, r.ComesTo n k → r'.ComesTo n k' →
    ∀ s j j', r.lattice.token k s j → r'.lattice.token k' s j' →
      r.input.between (r.skip k) j = r'.input.between (r'.skip k') j'
  ends : ∀ {n k k'}, r.ComesTo n k → r'.ComesTo n k' → (∀ s j, ¬r.lattice.token k s j) →
    (r.input.size ≤ r.skip k ↔ r'.input.size ≤ r'.skip k')

/-- Places that two runs come to in as many steps. -/
def Opposite (r r' : Recognition) (k k' : Nat) : Prop :=
  ∃ n, r.ComesTo n k ∧ r'.ComesTo n k'

theorem ScansLike.symm (h : r.ScansLike r') : r'.ScansLike r where
  lexemes hk hk' s := (h.lexemes hk' hk s).symm
  texts hk hk' s j j' hs hs' := (h.texts hk' hk s j' j hs' hs).symm
  ends hk hk' hnone := by
    refine (h.ends hk' hk fun s j hs => ?_).symm
    obtain ⟨j', hs'⟩ := (h.lexemes hk' hk s).mp ⟨j, hs⟩
    exact hnone s j' hs'

/-- Runs scan alike if they do so at places that stand opposite in some relation, and it keeps
    up with them. -/
theorem ScansLike.of_relation {opposite : Nat → Nat → Prop} (hzero : opposite 0 0)
    (hsucc : ∀ k k', opposite k k' → ∀ s s' j j', r.lattice.token k s j →
      r'.lattice.token k' s' j' → opposite j j')
    (hlexemes : ∀ k k', opposite k k' →
      ∀ s, (∃ j, r.lattice.token k s j) ↔ ∃ j', r'.lattice.token k' s j')
    (htexts : ∀ k k', opposite k k' → ∀ s j j', r.lattice.token k s j →
      r'.lattice.token k' s j' →
      r.input.between (r.skip k) j = r'.input.between (r'.skip k') j')
    (hends : ∀ k k', opposite k k' → (r.input.size ≤ r.skip k ↔ r'.input.size ≤ r'.skip k')) :
    r.ScansLike r' := by
  have hopposite {n k k' : Nat} (hk : r.ComesTo n k) (hk' : r'.ComesTo n k') : opposite k k' := by
    induction hk generalizing k' with
    | zero =>
      cases hk'
      exact hzero
    | succ _ hs ih =>
      cases hk' with
      | succ hprev hs' => exact hsucc _ _ (ih hprev) _ _ _ _ hs hs'
  exact ⟨fun hk hk' => hlexemes _ _ (hopposite hk hk'), fun hk hk' => htexts _ _ (hopposite hk hk'),
    fun hk hk' _ => hends _ _ (hopposite hk hk')⟩

/-- The tokens that are read from a place. -/
def tokensFrom (r : Recognition) (k : Nat) : List (SymbolId × Nat) :=
  (Lexer.initial.lexemes r.grammar r.input (r.skip k) (r.run.chart.expected k)).1

/-- A test for runs that scan alike: the pairs of places that they come to. -/
def scansLikeAt (r r' : Recognition) (pairs : List (Nat × Nat)) : Bool :=
  pairs.contains (0, 0) && pairs.all fun (k, k') =>
    decide (r.input.size ≤ r.skip k) == decide (r'.input.size ≤ r'.skip k') &&
    (r.tokensFrom k).all (fun f => (r'.tokensFrom k').any (·.1 == f.1)) &&
    (r'.tokensFrom k').all (fun f' => (r.tokensFrom k).any (·.1 == f'.1)) &&
    (r.tokensFrom k).all fun f => (r'.tokensFrom k').all fun f' => pairs.contains (f.2, f'.2) &&
      r.input.between (r.skip k) f.2 == r'.input.between (r'.skip k') f'.2

theorem ScansLike.of_scansLikeAt {pairs : List (Nat × Nat)} (h : r.scansLikeAt r' pairs = true) :
    r.ScansLike r' := by
  simp only [scansLikeAt, Bool.and_eq_true, List.contains_iff_mem, List.all_eq_true,
    List.any_eq_true, beq_iff_eq, decide_eq_decide] at h
  obtain ⟨hzero, hpairs⟩ := h
  refine @ScansLike.of_relation r r' (fun k k' => (k, k') ∈ pairs) hzero
    (fun k k' hk s s' j j' hs hs' => ?_) (fun k k' hk s => ?_) (fun k k' hk s j j' hs hs' => ?_)
    fun k k' hk => (hpairs _ hk).1.1.1
  · exact ((hpairs _ hk).2 _ hs _ hs').1
  · constructor
    · rintro ⟨j, hs⟩
      obtain ⟨⟨s', j'⟩, hs', rfl⟩ := (hpairs _ hk).1.1.2 _ hs
      exact ⟨j', hs'⟩
    · rintro ⟨j', hs'⟩
      obtain ⟨⟨s', j⟩, hs, rfl⟩ := (hpairs _ hk).1.2 _ hs'
      exact ⟨j, hs⟩
  · exact ((hpairs _ hk).2 _ hs _ hs').2

/-! ### The steps of a run -/

theorem Ended.comesTo_unique (hr : r.Ended) (hlongest : r.grammar.longestMatch = true)
    (hk : r.ComesTo n k) (hj : r.ComesTo n j) : k = j := by
  induction hk generalizing j with
  | zero =>
    cases hj
    rfl
  | succ _ hs ih =>
    cases hj with
    | succ hprev hs' =>
      obtain rfl := ih hprev
      exact hr.stop_unique hlongest hs hs'

/-- More steps lead further. -/
theorem Ended.lt_of_comesTo (hr : r.Ended) (hlongest : r.grammar.longestMatch = true)
    (hk : r.ComesTo n k) (hj : r.ComesTo m j) (hlt : n < m) : k < j := by
  induction hj with
  | zero => cases hlt
  | succ hprev hs ih =>
    have hstep := hr.forward hs
    rcases Nat.lt_succ_iff_lt_or_eq.mp hlt with hlt | rfl
    · exact (ih hlt).trans hstep
    · rwa [hr.comesTo_unique hlongest hk hprev]

theorem Ended.lt_iff_of_comesTo (hr : r.Ended) (hlongest : r.grammar.longestMatch = true)
    (hk : r.ComesTo n k) (hj : r.ComesTo m j) : k < j ↔ n < m := by
  refine ⟨fun hlt => Nat.lt_of_not_le fun hle => ?_, hr.lt_of_comesTo hlongest hk hj⟩
  rcases Nat.eq_or_lt_of_le hle with rfl | hless
  · exact absurd hlt (by simp [hr.comesTo_unique hlongest hk hj])
  · exact absurd hlt (Nat.lt_asymm (hr.lt_of_comesTo hlongest hj hk hless))

/-- The places that are reached are those that the run comes to. -/
theorem Ended.reached_iff_comesTo (hr : r.Ended)
    (hstart : r.grammar.structural.Defines r.grammar.start) :
    r.Reached k ↔ ∃ n, r.ComesTo n k := by
  constructor
  · intro hk
    induction k using Nat.strongRecOn with
    | ind k ih =>
      rcases hr.exists_token hk with rfl | ⟨j, s, hj, htoken⟩
      · exact ⟨0, .zero⟩
      · obtain ⟨n, hn⟩ := ih j (hr.forward htoken) hj
        exact ⟨n + 1, hn.succ htoken⟩
  · rintro ⟨n, hn⟩
    cases hn with
    | zero => exact hr.reached_zero hstart
    | succ _ hs => exact hr.reached_of_token hs

/-! ### Opposite places -/

namespace ScansLike

/-- What the one run comes to the other one comes to. -/
theorem exists_comesTo (h : r.ScansLike r') (hk : r.ComesTo n k) : ∃ k', r'.ComesTo n k' := by
  induction hk with
  | zero => exact ⟨0, .zero⟩
  | succ hprev hs ih =>
    obtain ⟨k', hk'⟩ := ih
    obtain ⟨j', hs'⟩ := (h.lexemes hprev hk' _).mp ⟨_, hs⟩
    exact ⟨j', hk'.succ hs'⟩

/-- The lattices of runs that scan alike are aligned. -/
theorem aligned (h : r.ScansLike r') (hr : r.Ended) (hr' : r'.Ended)
    (hlongest : r.grammar.longestMatch = true) (hlongest' : r'.grammar.longestMatch = true) :
    r.lattice.Aligned r'.lattice (r.Opposite r') where
  lt_iff := by
    rintro k k' m m' ⟨n, hk, hk'⟩ ⟨n', hm, hm'⟩
    rw [hr.lt_iff_of_comesTo hlongest hk hm, hr'.lt_iff_of_comesTo hlongest' hk' hm']
  forth := by
    rintro k k' s j ⟨n, hk, hk'⟩ hs
    obtain ⟨j', hs'⟩ := (h.lexemes hk hk' s).mp ⟨j, hs⟩
    exact ⟨j', ⟨n + 1, hk.succ hs, hk'.succ hs'⟩, hs'⟩
  back := by
    rintro k k' s j' ⟨n, hk, hk'⟩ hs'
    obtain ⟨j, hs⟩ := (h.lexemes hk hk' s).mpr ⟨j', hs'⟩
    exact ⟨j, ⟨n + 1, hk.succ hs, hk'.succ hs'⟩, hs⟩
  origin := by
    rintro k k' m m' s s' j ⟨n, hk, -⟩ ⟨n', hm, -⟩ hs hs'
    have hsame := hr.lt_iff_of_comesTo hlongest (hk.succ hs) (hm.succ hs')
    have hsame' := hr.lt_iff_of_comesTo hlongest (hm.succ hs') (hk.succ hs)
    obtain rfl : n = n' := by omega
    exact hr.comesTo_unique hlongest hk hm

/-- Where text is left a lexeme may be read, so that it matters only at the end whether all is
    skipped. -/
theorem size_le_iff (h : r.ScansLike r') (hr : r.Ended) (hr' : r'.Ended)
    (hk : r.Opposite r' k k') : r.input.size ≤ r.skip k ↔ r'.input.size ≤ r'.skip k' := by
  obtain ⟨n, hk, hk'⟩ := hk
  by_cases hnone : ∀ s j, ¬r.lattice.token k s j
  · exact h.ends hk hk' hnone
  · push Not at hnone
    obtain ⟨s, j, hs⟩ := hnone
    obtain ⟨j', hs'⟩ := (h.lexemes hk hk' s).mp ⟨j, hs⟩
    exact iff_of_false (fun hend => hr.not_token_of_size_le hend hs) fun hend =>
      hr'.not_token_of_size_le hend hs'

/-- A rule of the start symbol that has a reading over the one input has one over the other. -/
theorem covers (h : r.ScansLike r') (hr : r.Ended) (hr' : r'.Ended)
    (hgrammar : r'.grammar = r.grammar) (hlongest : r.grammar.longestMatch = true)
    {id : RuleId} {stop : Nat} (hcovers : r.Covers r.lattice id stop) :
    ∃ stop', r.Opposite r' stop stop' ∧ r'.Covers r'.lattice id stop' := by
  have haligned := h.aligned hr hr' hlongest (hgrammar ▸ hlongest)
  obtain ⟨stop', hstop, hspans⟩ := haligned.spans ⟨0, .zero, .zero⟩ hcovers.spans
  refine ⟨stop', hstop, ?_, (h.size_le_iff hr hr' hstop).mp hcovers.skip, ?_⟩
  · rw [hgrammar]
    exact hcovers.start
  · rwa [hgrammar]

/-- The last places that two such runs reach stand opposite. -/
theorem opposite_furthest (h : r.ScansLike r') (hr : r.Ended) (hr' : r'.Ended)
    (hgrammar : r'.grammar = r.grammar) (hlongest : r.grammar.longestMatch = true)
    (hstart : r.grammar.structural.Defines r.grammar.start)
    (hend : r.grammar.runTo none r.input (r.input.size + 1) = .ok r.run)
    (hend' : r'.grammar.runTo none r'.input (r'.input.size + 1) = .ok r'.run) :
    r.Opposite r' r.run.furthest r'.run.furthest := by
  have hlongest' : r'.grammar.longestMatch = true := hgrammar ▸ hlongest
  have hstart' : r'.grammar.structural.Defines r'.grammar.start := hgrammar ▸ hstart
  obtain ⟨hreached, hlast⟩ := hr.furthest hstart hend
  obtain ⟨hreached', hlast'⟩ := hr'.furthest hstart' hend'
  obtain ⟨n, hn⟩ := (hr.reached_iff_comesTo hstart).mp hreached
  obtain ⟨m, hm⟩ := (hr'.reached_iff_comesTo hstart').mp hreached'
  obtain ⟨k', hk'⟩ := h.exists_comesTo hn
  obtain ⟨k, hk⟩ := h.symm.exists_comesTo hm
  have hle := hlast k ((hr.reached_iff_comesTo hstart).mpr ⟨m, hk⟩)
  have hle' := hlast' k' ((hr'.reached_iff_comesTo hstart').mpr ⟨n, hk'⟩)
  have hlt := hr.lt_iff_of_comesTo hlongest hn hk
  have hlt' := hr'.lt_iff_of_comesTo hlongest' hm hk'
  obtain rfl : n = m := by omega
  exact ⟨n, hn, hm⟩

end ScansLike

/-! ### Failures -/

/-- A run fails exactly if no rule of the start symbol has a reading over the input. -/
theorem Ended.failure?_eq_none_iff_covers (hr : r.Ended) :
    r.failure? = none ↔ ∃ id stop, r.Covers r.lattice id stop := by
  rw [failure?_eq_none_iff]
  constructor
  · rintro ⟨root, hroot⟩
    obtain ⟨hskip, id, hid, hit⟩ := hr.mem_roots_iff.mp hroot
    exact ⟨id, root.set, hid, hskip,
      (hr.exists_complete_iff hr.fits_lattice hid root.set).mp ⟨root.index, hit⟩⟩
  · rintro ⟨id, stop, hcovers⟩
    obtain ⟨root, hroot, -⟩ :=
      hr.exists_root_of_spans hr.fits_lattice hcovers.start hcovers.skip hcovers.spans
    exact ⟨root, hroot⟩

end Recognition

/-- Errors of one kind: what they say of offsets, and of what is expected there, may differ. -/
inductive RunError.Akin : RunError → RunError → Prop where
  | noLexemeMatch (offset offset' : Nat) (location location' : Location)
      (expected expected' : List String) :
      Akin (.noLexemeMatch offset location expected) (.noLexemeMatch offset' location' expected')
  | incompleteParse : Akin .incompleteParse .incompleteParse
  | unboundAction (name : String) : Akin (.unboundAction name) (.unboundAction name)
  | exhausted (limit offset offset' : Nat) :
    Akin (.exhausted limit offset) (.exhausted limit offset')

namespace Recognition

variable {r r' : Recognition}

/-- Runs that scan alike fail with errors of one kind, or none of them fails. -/
theorem ScansLike.failure (h : r.ScansLike r') (hr : r.Ended) (hr' : r'.Ended)
    (hgrammar : r'.grammar = r.grammar) (hlongest : r.grammar.longestMatch = true)
    (hfurthest : r.Opposite r' r.run.furthest r'.run.furthest) :
    (r.failure? = none ∧ r'.failure? = none) ∨
      ∃ e e', r.failure? = some e ∧ r'.failure? = some e' ∧ e.Akin e' := by
  have hsame : r.failure? = none ↔ r'.failure? = none := by
    rw [hr.failure?_eq_none_iff_covers, hr'.failure?_eq_none_iff_covers]
    constructor
    · rintro ⟨id, stop, hcovers⟩
      obtain ⟨stop', -, hcovers'⟩ := h.covers hr hr' hgrammar hlongest hcovers
      exact ⟨id, stop', hcovers'⟩
    · rintro ⟨id, stop, hcovers⟩
      obtain ⟨stop', -, hcovers'⟩ :=
        h.symm.covers hr' hr hgrammar.symm (hgrammar ▸ hlongest) hcovers
      exact ⟨id, stop', hcovers'⟩
  by_cases hok : r.failure? = none
  · exact Or.inl ⟨hok, hsame.mp hok⟩
  refine Or.inr ?_
  have hroots : ∀ {r : Recognition}, r.failure? ≠ none → r.run.roots.isEmpty = true := by
    intro r hfails
    by_contra hroots
    exact hfails (if_neg hroots)
  have hskip := h.size_le_iff hr hr' hfurthest
  rw [failure?, failure?, if_pos (hroots hok), if_pos (hroots (mt hsame.mpr hok))]
  by_cases hend : r.input.size ≤ r.skip r.run.furthest
  · simp only [if_pos hend, if_pos (hskip.mp hend)]
    exact ⟨_, _, rfl, rfl, .incompleteParse⟩
  · simp only [if_neg hend, if_neg (mt hskip.mpr hend)]
    exact ⟨_, _, rfl, rfl, .noLexemeMatch _ _ _ _ _ _⟩

end Recognition

/-! ### Items -/

namespace Recognition

variable {r r' : Recognition}

/-- One item of a rule, at places that stand opposite and from places that do so. -/
structure Facing (r r' : Recognition) (a b : Nat × Item) : Prop where
  place : r.Opposite r' a.1 b.1
  origin : r.Opposite r' a.2.origin b.2.origin
  rule : a.2.rule = b.2.rule
  dot : a.2.dot = b.2.dot

/-- Each item of a run faces one of a run that scans alike. -/
theorem ScansLike.exists_facing (h : r.ScansLike r') (hr : r.Ended) (hr' : r'.Ended)
    (hgrammar : r'.grammar = r.grammar) (hlongest : r.grammar.longestMatch = true) {i k : Nat}
    {it : Item} (hit : r.run.chart.item? ⟨k, i⟩ = some it) :
    ∃ k' m it', r'.run.chart.item? ⟨k', m⟩ = some it' ∧ r.Facing r' (k, it) (k', it') := by
  obtain ⟨g, input, run⟩ := r
  obtain ⟨g', input', run'⟩ := r'
  obtain rfl : g' = g := hgrammar
  obtain ⟨k', o', m, hk, ho, hm⟩ := hr.finished.arises.aligned hr'.finished
    (h.aligned hr hr' hlongest hlongest) ⟨0, .zero, .zero⟩ hit
  exact ⟨k', m, _, hm, hk, ho, rfl, rfl⟩

theorem Ended.nodup_created (hr : r.Ended) :
    (r.created.map fun a => (a.place, a.item)).Nodup :=
  (Chart.nodup_created hr.place_lt).2

/-- Of two runs that scan alike the one makes no more items than the other: different items face
    different ones. -/
theorem ScansLike.length_created_le (h : r.ScansLike r') (hr : r.Ended) (hr' : r'.Ended)
    (hgrammar : r'.grammar = r.grammar) (hlongest : r.grammar.longestMatch = true) :
    r.created.length ≤ r'.created.length := by
  have haligned := h.aligned hr hr' hlongest (hgrammar ▸ hlongest)
  have hcard := Finset.card_le_card_of_forall_subsingleton (r.Facing r')
    (s := (r.created.map fun a => (a.place, a.item)).toFinset)
    (t := (r'.created.map fun a => (a.place, a.item)).toFinset) ?_ ?_
  · rwa [List.toFinset_card_of_nodup hr.nodup_created,
      List.toFinset_card_of_nodup hr'.nodup_created, List.length_map, List.length_map] at hcard
  · rintro ⟨k, it⟩ hmem
    obtain ⟨i, hit⟩ := hr.exists_item?_iff.mpr (List.mem_toFinset.mp hmem)
    obtain ⟨k', m, it', hm, hfacing⟩ := h.exists_facing hr hr' hgrammar hlongest hit
    exact ⟨(k', it'), List.mem_toFinset.mpr (hr'.exists_item?_iff.mp ⟨m, hm⟩), hfacing⟩
  · rintro ⟨k', it'⟩ - ⟨k, id, dot, o⟩ ⟨-, ha⟩ ⟨k₂, id₂, dot₂, o₂⟩ ⟨-, hb⟩
    obtain rfl := (haligned.eq_iff ha.place hb.place).mpr rfl
    obtain rfl := (haligned.eq_iff ha.origin hb.origin).mpr rfl
    obtain rfl : id = id₂ := ha.rule.trans hb.rule.symm
    obtain rfl : dot = dot₂ := ha.dot.trans hb.dot.symm
    rfl

end Recognition

end Scannerless
