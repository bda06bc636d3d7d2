import Scannerless.Proofs.Chart.Stages

/-!
# Viable prefixes

A set of a chart that has all that its items call for waits for a token exactly if the token goes
on with what a start symbol derives: behind tokens that lead up to the set, and with anything
behind it. Both directions go by way of the places at which a derivation comes to the token.

## Main definitions

- `RuleTable.Leads` — how a list of symbols comes to a token at a place.

## Main statements

- `RuleTable.leads_iff_derives` — a list of symbols comes to a token exactly if it derives a list
  with the token behind a path to the place.
- `Chart.Arises.leads` — what an item comes to, a start symbol comes to.
- `Chart.Finished.exists_next?` — what an item comes to, some item waits for.
-/

namespace Scannerless

/-! ### Derivations that come to a token -/

namespace RuleTable

variable {t : RuleTable} {l : Lattice} {a : SymbolId} {k : Nat} {ss : List SymbolId} {i : Nat}

/-- A list of symbols comes to the token `a` at place `k`: the token stands in front, or a rule of
    the symbol in front comes to it, or the list does behind a symbol that spans two places. -/
inductive Leads (t : RuleTable) (l : Lattice) (a : SymbolId) (k : Nat) :
    List SymbolId → Nat → Prop where
  | here (rest : List SymbolId) : Leads t l a k (a :: rest) k
  | into {s : SymbolId} {id : RuleId} {i : Nat} (rest : List SymbolId)
      (hid : id ∈ t.rulesFor s) (hrhs : Leads t l a k (t.rhs id) i) : Leads t l a k (s :: rest) i
  | past {s : SymbolId} {rest : List SymbolId} {i j : Nat} (hs : t.Spans l [s] i j)
      (hrest : Leads t l a k rest j) : Leads t l a k (s :: rest) i

theorem Leads.append_right (h : t.Leads l a k ss i) (rest : List SymbolId) :
    t.Leads l a k (ss ++ rest) i := by
  induction h with
  | here front => exact .here (front ++ rest)
  | into front hid hrhs _ => exact .into (front ++ rest) hid hrhs
  | past hs _ ih => exact .past hs ih

theorem Leads.append_left {rest : List SymbolId} {j : Nat} (hss : t.Spans l ss i j)
    (h : t.Leads l a k rest j) : t.Leads l a k (ss ++ rest) i := by
  induction ss generalizing i with
  | nil =>
    obtain rfl := spans_nil_iff.mp hss
    exact h
  | cons s ss ih =>
    obtain ⟨m, hs, hss⟩ := spans_cons_iff.mp hss
    exact .past hs (ih hss)

/-- Two lists behind one another come to a token within the first of them or behind it. -/
theorem Leads.of_append {rest : List SymbolId} (h : t.Leads l a k (ss ++ rest) i) :
    t.Leads l a k ss i ∨ ∃ j, t.Spans l ss i j ∧ t.Leads l a k rest j := by
  induction ss generalizing i with
  | nil => exact Or.inr ⟨i, spans_nil_iff.mpr rfl, h⟩
  | cons s ss ih =>
    cases h with
    | here => exact Or.inl (.here ss)
    | into _ hid hrhs => exact Or.inl (.into ss hid hrhs)
    | past hs hrest =>
      rcases ih hrest with hss | ⟨j, hss, hj⟩
      · exact Or.inl (.past hs hss)
      · exact Or.inr ⟨j, spans_cons_iff.mpr ⟨_, hs, hss⟩, hj⟩

/-- What a list of symbols comes to after a rewriting step it comes to before. -/
theorem Leads.of_rewrites {u v : List SymbolId} (hi : t.Indexed) (h : t.Rewrites u v)
    (hv : t.Leads l a k v i) : t.Leads l a k u i := by
  obtain @⟨id, s, front, back, hs⟩ := h
  have hid := (hi s id).mpr hs
  rw [List.append_assoc] at hv
  rcases hv.of_append with hfront | ⟨m, hfront, hv⟩
  · exact hfront.append_right _
  refine .append_left hfront ?_
  rcases hv.of_append with hrhs | ⟨j, hrhs, hback⟩
  · exact .into back hid hrhs
  · exact .past (spans_singleton_iff.mpr (Or.inr ⟨id, hid, hrhs⟩)) hback

/-- A list of symbols comes to a token exactly if it derives a list that has the token behind a
    path up to the place. -/
theorem leads_iff_derives (hi : t.Indexed) (hl : ∀ {m s j}, l.token m s j → t.hasRules s = false) :
    t.Leads l a k ss i ↔ ∃ w rest, l.Chain w i k ∧ t.Derives ss (w ++ a :: rest) := by
  constructor
  · intro h
    induction h with
    | here rest => exact ⟨[], rest, .nil k, .refl⟩
    | @into s id i rest hid _ ih =>
      obtain ⟨w, back, hchain, hderives⟩ := ih
      refine ⟨w, back ++ rest, hchain, ?_⟩
      have happend := (Derives.of_rhs ((hi s id).mp hid) hderives).append
        (.refl : t.Derives rest rest)
      simpa using happend
    | past hs _ ih =>
      obtain ⟨v, hv, -, hchain⟩ := hs.exists_chain hi
      obtain ⟨w, back, hchain', hderives⟩ := ih
      refine ⟨v ++ w, back, hchain.append hchain', ?_⟩
      have happend := hv.append hderives
      simpa using happend
  · rintro ⟨w, rest, hchain, hderives⟩
    -- From the tokens back to the symbols, one rewriting step after the other.
    induction hderives using Relation.ReflTransGen.head_induction_on with
    | refl =>
      have hterminal : ∀ s ∈ w, t.hasRules s = false := by
        clear hi
        induction hchain with
        | nil => simp
        | cons hs _ ih => exact List.forall_mem_cons.mpr ⟨hl hs, ih⟩
      exact .append_left (spans_of_chain hchain hterminal) (.here rest)
    | head hstep _ ih => exact .of_rewrites hi hstep ih

end RuleTable

/-! ### Items that come to a token -/

namespace Chart

variable {t : RuleTable} {c : Chart t} {starts : List SymbolId} {l : Lattice} {a : SymbolId}
  {k : Nat} {ref : ItemRef} {it : Item}

theorem drop_of_next? {s : SymbolId} (h : t.next? it = some s) :
    (t.rhs it.rule).drop it.dot = s :: (t.rhs it.rule).drop it.advanced.dot := by
  obtain ⟨hlt, rfl⟩ := List.getElem?_eq_some_iff.mp h
  exact List.drop_eq_getElem_cons hlt

theorem next?_of_drop {s : SymbolId} {rest : List SymbolId}
    (h : (t.rhs it.rule).drop it.dot = s :: rest) : t.next? it = some s := by
  rw [RuleTable.next?, ← List.head?_drop, h, List.head?_cons]

/-- What an item comes to behind its dot, a start symbol comes to. -/
theorem Arises.leads (hi : t.Indexed) (hc : c.Arises starts l) (hit : c.item? ref = some it)
    (h : t.Leads l a k ((t.rhs it.rule).drop it.dot) ref.set) :
    ∃ s ∈ starts, t.Leads l a k [s] 0 := by
  induction hc generalizing ref it with
  | ofSize count => simp at hit
  | grow _ ih => exact ih (by simpa using hit) h
  | @apply c refs b hc hb ih =>
    rcases item?_add_cases hit with hit | ⟨hset, rfl⟩
    · exact ih hit h
    rw [hset] at h
    cases hb with
    | start hs hid => exact ⟨_, hs, .into [] hid h⟩
    | predicted hparent hs hid =>
      refine ih hparent ?_
      rw [drop_of_next? hs]
      exact .into _ hid h
    | completed hparent hchild hs hlhs hnext horigin =>
      have hspan := hc.spans hi hchild
      rw [RuleTable.take_of_next?_eq_none hnext, horigin] at hspan
      refine ih hparent ?_
      rw [drop_of_next? hs]
      exact .past (RuleTable.spans_singleton_iff.mpr (Or.inr ⟨_, (hi _ _).mpr hlhs, hspan⟩)) h
    | scanned hparent hs hterm hj =>
      refine ih hparent ?_
      rw [drop_of_next? hs]
      exact .past (RuleTable.spans_singleton_iff.mpr (Or.inl ⟨hterm, hj⟩)) h

/-- An item moves over a symbol that spans the places from its set to another one. -/
theorem Finished.exists_advanced (hc : c.Finished starts l) (hi : t.Indexed) (hl : l.Forward)
    {s : SymbolId} {j : Nat} (hit : c.item? ref = some it) (hs : t.next? it = some s)
    (hspans : t.Spans l [s] ref.set j) : ∃ m, c.item? ⟨j, m⟩ = some it.advanced := by
  obtain ⟨i, hpred⟩ := hc.arises.exists_predicted hit
  have hall : t.Spans l ((t.rhs it.advanced.rule).take it.advanced.dot) it.origin j := by
    rw [RuleTable.take_advanced hs]
    exact RuleTable.spans_append_iff.mpr ⟨_, hc.arises.spans hi hit, hspans⟩
  exact ((hc.closedTo j).exists_item?_iff hi hl hpred (Nat.le_refl j) it.advanced.dot).mpr
    ⟨RuleTable.dot_lt_of_next? hs, hall⟩

/-- What an item comes to behind its dot, some item at the place waits for. -/
theorem Finished.exists_next? (hc : c.Finished starts l) (hi : t.Indexed) (hl : l.Forward)
    (hit : c.item? ref = some it) (h : t.Leads l a k ((t.rhs it.rule).drop it.dot) ref.set) :
    ∃ m w, c.item? ⟨k, m⟩ = some w ∧ t.next? w = some a := by
  generalize hss : (t.rhs it.rule).drop it.dot = ss at h
  generalize hset : ref.set = i at h
  induction h generalizing ref it with
  | here rest =>
    obtain ⟨set, m⟩ := ref
    obtain rfl : set = _ := hset
    exact ⟨m, it, hit, next?_of_drop hss⟩
  | into rest hid _ ih =>
    obtain ⟨m, hm, -⟩ := hc.saturated _ _ (.predicted hit (next?_of_drop hss) hid)
    exact ih hm (by simp) hset
  | past hs _ ih =>
    obtain ⟨m, hm⟩ := hc.exists_advanced hi hl hit (next?_of_drop hss) (hset ▸ hs)
    rw [drop_of_next? (next?_of_drop hss)] at hss
    exact ih hm (List.cons.inj hss).2 rfl

/-- Some item at a place waits for a token exactly if a start symbol comes to it there. -/
theorem Finished.exists_next?_iff (hc : c.Finished starts l) (hi : t.Indexed) (hl : l.Forward)
    (ha : t.hasRules a = false) (hstarts : ∀ s ∈ starts, t.hasRules s = true) :
    (∃ m w, c.item? ⟨k, m⟩ = some w ∧ t.next? w = some a) ↔
      ∃ s ∈ starts, t.Leads l a k [s] 0 := by
  constructor
  · rintro ⟨m, w, hm, hnext⟩
    refine hc.arises.leads hi hm ?_
    rw [drop_of_next? hnext]
    exact .here _
  · rintro ⟨s, hs, hleads⟩
    cases hleads with
    | here =>
      rw [hstarts a hs] at ha
      cases ha
    | into _ hid hrhs =>
      obtain ⟨m, hm, -⟩ := hc.saturated _ _ (.start hs hid)
      exact hc.exists_next? hi hl hm hrhs
    | past _ hrest => cases hrest

end Chart

end Scannerless
